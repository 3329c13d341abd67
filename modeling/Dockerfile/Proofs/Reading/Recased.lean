import Dockerfile.Proofs.Reading
import Dockerfile.Proofs.Statement.Recased

/-!
# Reading keywords in another case

* `Reader.KeywordsRecased`: a text in which the keywords of some instructions are in another case.
* `Reader.exists_keyword`: where the keyword of an instruction stands.
* `Reader.exists_byLines_recased`: such a text has the same instructions, up to the case of their
  names.
-/

namespace Dockerfile

open Text

/-- The instructions differ in the case of their names only, which are keywords. -/
structure Instruction.Recased (i j : Instruction) : Prop where
  isAlphanum : Text.isAlphanum i.name
  name : sameLetters j.name i.name
  flags : j.flags = i.flags
  values : j.values = i.values
  first : j.first = i.first
  last : j.last = i.last
  source : sameLetters j.source i.source

namespace Statement

variable {s t : Statement}

theorem Recased.keyword? (h : s.Recased t) : t.keyword? = s.keyword? := Keyword.ofName?_congr h.name

theorem Recased.rest (h : s.Recased t) : t.rest = s.rest := by
  rw [Statement.rest, Statement.rest, h.after]

theorem Recased.values (h : s.Recased t) : t.values = s.values := by
  have hbracketed : t.isBracketed = s.isBracketed := by
    simp only [isBracketed, h.keyword?, h.rest]
  have hlineValues : t.lineValues = s.lineValues := by
    simp only [lineValues, hbracketed, h.keyword?, h.rest]
  rw [Statement.values, Statement.values, h.body, hlineValues]

theorem Recased.source (h : s.Recased t) : foldCase t.source = foldCase s.source := by
  unfold Statement.source
  rw [h.body]
  split
  · exact h.text
  · rw [foldCase, List.map_append, ← foldCase, h.text, foldCase, ← List.map_append]
    rfl

theorem Recased.toInstruction (h : s.Recased t) (hname : isAlphanum s.name) :
    s.toInstruction.Recased t.toInstruction where
  isAlphanum := hname
  name := sameLetters_iff.mpr h.name
  flags := by
    show t.flags = s.flags
    rw [flags, flags, h.after]
  values := h.values
  first := h.first
  last := h.last
  source := sameLetters_iff.mpr h.source

theorem forall₂_toInstruction {ss ts : List Statement} (h : List.Forall₂ Recased ss ts)
    (hnames : ∀ s ∈ ss, isAlphanum s.name) :
    List.Forall₂ Instruction.Recased (ss.map toInstruction) (ts.map toInstruction) ∧
      ∀ t ∈ ts, isAlphanum t.name := by
  induction h with
  | nil => simp
  | @cons s t ss ts hst _ ih =>
    obtain ⟨hs, hnames⟩ := List.forall_mem_cons.mp hnames
    obtain ⟨hall, hnames'⟩ := ih hnames
    have ht : isAlphanum t.name := by rw [isAlphanum_congr hst.name, hs]
    exact ⟨.cons (hst.toInstruction hs) hall, List.forall_mem_cons.mpr ⟨ht, hnames'⟩⟩

end Statement

/-- A line that starts with a keyword is no directive. -/
theorem Directive.ofLine?_word {lead word : Text} (hlead : Blank lead) (hword : isAlphanum word)
    (rest : Text) : ofLine? (lead ++ (word ++ rest)) = none := by
  have htrim := trim_word_append hlead hword rest
  have hskip := Statement.isSkipped_word hword (trimEnd rest)
  rw [← htrim] at hskip
  rw [ofLine?]
  split
  · next body hbody =>
    rw [hbody] at hskip
    cases hskip
  · rfl

namespace Reader

open Statement

variable {options : ReadOptions} {escape : Char} {is : List Instruction} {t u : Text}

/-- The texts differ in the case of letters only, and only inside the keywords with which the lines
begin that hold the start of the text of one of the instructions. The escape character is the one
in force. -/
structure KeywordsRecased (escape : Char) (is : List Instruction) (t u : Text) : Prop where
  letters : sameLetters u t
  line : ∀ n l k, (lines t)[n]? = some l → (lines u)[n]? = some k →
    k = l ∨ ∃ i ∈ is, BeginsAt escape (lines t) i.first n ∧ WordRecased i.name l k

/-- The keyword of an instruction stands on the line on which its text begins. -/
theorem exists_keyword (h : (byLines options t).value = .ok is)
    (hescape : Escape.effective options.escape (lines t) = .ok escape) :
    ∀ i ∈ is, ∃ n lead tail, BeginsAt escape (lines t) i.first n ∧ Blank lead ∧
      (lines t)[n]? = some (lead ++ (i.name ++ tail)) := by
  obtain ⟨c, ss, hc, hss, -, hnames, rfl⟩ := byLines_eq_ok.mp h
  obtain rfl : c = escape := Except.ok.inj (hc.symm.trans hescape)
  refine List.forall_mem_map.mpr fun s hs => ?_
  have hbegins := (ofLines_eq_ok_iff_division.mp hss).beginsIn s hs
  exact hbegins.exists_keyword (hnames s hs)

/-- The case of keywords does not count, apart from the names of the instructions. -/
theorem exists_byLines_recased (hvalid : Escape.isValid options.escape)
    (h : (byLines options t).value = .ok is)
    (hescape : Escape.effective options.escape (lines t) = .ok escape)
    (hu : KeywordsRecased escape is t u) :
    ∃ js, (byLines options u).value = .ok js ∧ List.Forall₂ Instruction.Recased is js := by
  obtain ⟨c, ss, hc, hss, hne, hnames, rfl⟩ := byLines_eq_ok.mp h
  obtain rfl : c = escape := Except.ok.inj (hc.symm.trans hescape)
  have hlength : (lines u).length = (lines t).length := by
    rw [← List.length_map (f := foldCase), ← lines_foldCase, sameLetters_iff.mp hu.letters,
      lines_foldCase, List.length_map]
  have hrecased : RecasedAt (KeywordAt c (lines t) ss) (lines t) (lines u) := by
    refine ⟨hlength, fun n l k hl hk => (hu.line n l k hl hk).imp_right ?_⟩
    rintro ⟨i, hi, hn, hword⟩
    obtain ⟨s, hs, rfl⟩ := List.mem_map.mp hi
    exact ⟨s.name, ⟨s, hs, hn, rfl⟩, hword⟩
  have hdirectives : (lines u).map Directive.ofLine? = (lines t).map Directive.ofLine? := by
    refine List.ext_getElem (by simp [hlength]) fun n hk hl => ?_
    rw [List.length_map] at hk hl
    rw [List.getElem_map, List.getElem_map]
    rcases hrecased.line n _ _ (List.getElem?_eq_getElem hl) (List.getElem?_eq_getElem hk) with
      heq | ⟨_, ⟨s, hs, -, rfl⟩, lead, spelled, rest, hlead, hline, hother, hfold⟩
    · rw [heq]
    · have hspelled : isAlphanum spelled := by rw [isAlphanum_congr hfold, hnames s hs]
      rw [hline, hother, Directive.ofLine?_word hlead hspelled,
        Directive.ofLine?_word hlead (hnames s hs)]
  obtain ⟨ts, hts, hall⟩ := (ofLines_eq_ok_iff_division.mp hss).recased
    (Escape.isValid_of_effective hvalid hc) hnames hrecased
  obtain ⟨hinstructions, hnames'⟩ := forall₂_toInstruction hall hnames
  have hts' : ts ≠ [] := by
    rintro rfl
    exact hne (List.forall₂_nil_right_iff.mp hall)
  exact ⟨_, byLines_eq_ok.mpr ⟨c, ts, (Escape.effectiveFrom_congr hdirectives).trans hc,
    hts.ofLines_eq, hts', hnames', rfl⟩, hinstructions⟩

end Reader

end Dockerfile
