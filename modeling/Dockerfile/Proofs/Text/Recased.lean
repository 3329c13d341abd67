import Dockerfile.Proofs.Text.Case
import Dockerfile.Proofs.Text.Line
import Dockerfile.Proofs.Text.Word

/-!
# Words in another case

* `Text.lines_foldCase`: the case of letters does not move line endings.
* `Text.trim_word_append`, `Text.firstWord_word_append`, `Text.afterFirstWord_word_append`: what
  white space cuts off a text does not depend on the word at its start.
* `Text.RecasedAt`: lines of which some have a word in another case.
-/

namespace Dockerfile.Text

variable {t word lead : Text} {c : Char} {ls ks more others : List Text} {l k : Text}

/-! ## Line endings -/

/-- No letter is a line feed or a carriage return in another case. -/
theorem toLower_eq_lineFeed_or_return :
    (c.toLower = '\n' ↔ c = '\n') ∧ (c.toLower = '\r' ↔ c = '\r') := by
  by_cases hc : c.toNat < 0x80
  · exact forall_ascii (P := fun c => (c.toLower = '\n' ↔ c = '\n') ∧ (c.toLower = '\r' ↔ c = '\r'))
      (by decide +kernel) hc
  · have hne (d : Char) (hd : d.toNat < 0x80) (hlower : d.toLower = d) : c.toLower = d ↔ c = d := by
      refine ⟨fun h => absurd (toNat_lt_of_toLower (by rwa [h])) hc, ?_⟩
      rintro rfl
      exact hlower
    exact ⟨hne '\n' (by decide) (by decide), hne '\r' (by decide) (by decide)⟩

theorem lines_foldCase (t : Text) : lines (foldCase t) = (lines t).map foldCase := by
  induction t with
  | nil => rfl
  | cons c rest ih =>
    obtain ⟨hfeed, hreturn⟩ := toLower_eq_lineFeed_or_return (c := c)
    by_cases hn : c = '\n'
    · subst hn
      exact congrArg ([] :: ·) ih
    · by_cases hr : c = '\r' ∧ rest.head? = some '\n'
      · -- A carriage return before a line feed adds nothing to the lines.
        obtain ⟨rfl, hhead⟩ := hr
        obtain ⟨rest, rfl⟩ := List.head?_eq_some_iff.mp hhead
        exact ih
      · have hfold : c.toLower = '\r' → (foldCase rest).head? ≠ some '\n' := by
          intro hc hhead
          rw [foldCase, List.head?_map, Option.map_eq_some_iff] at hhead
          obtain ⟨d, hd, hlower⟩ := hhead
          rw [toLower_eq_lineFeed_or_return.1.mp hlower] at hd
          exact hr ⟨hreturn.mp hc, hd⟩
        rw [lines_cons hn fun hc hhead => hr ⟨hc, hhead⟩]
        refine (lines_cons (mt hfeed.mp hn) hfold).trans ?_
        rw [ih]
        cases lines rest <;> rfl

/-! ## A word at the start -/

theorem isSpace_of_mem_word (h : isAlphanum word) : ∀ c ∈ word, isSpace c = false := fun c hc =>
  isSpace_of_isAlphanum ((isAlphanum_iff.mp h).2 c hc)

/-- The word is not cut off. -/
theorem trimEnd_word_append (h : isAlphanum word) (t : Text) :
    trimEnd (word ++ t) = word ++ trimEnd t := by
  by_cases ht : trimEnd t = []
  · have hword : NoTrail word := fun c hc =>
      isSpace_of_mem_word h c (List.mem_of_getLast? hc)
    rw [trimEnd_append_of_blank (blank_of_trimEnd_eq_nil ht), hword.trimEnd_eq, ht, List.append_nil]
  · exact trimEnd_append ht

theorem trim_word_append (hlead : Blank lead) (h : isAlphanum word) (t : Text) :
    trim (lead ++ (word ++ t)) = word ++ trimEnd t := by
  have hword : NoLead word := fun c hc => isSpace_of_mem_word h c (List.mem_of_head? hc)
  rw [trim, trimStart_append_of_blank hlead,
    (hword.append (isAlphanum_iff.mp h).1).trimStart_eq, trimEnd_word_append h]

theorem firstWord_word_append (h : isAlphanum word) (t : Text) :
    firstWord (word ++ t) = word ++ (trimEnd t).takeWhile (!isSpace ·) := by
  rw [firstWord, ← List.nil_append (word ++ t), trim_word_append (by simp [Blank]) h,
    List.takeWhile_append_of_pos fun c hc => by simp [isSpace_of_mem_word h c hc]]

theorem afterFirstWord_word_append (h : isAlphanum word) (t : Text) :
    afterFirstWord (word ++ t) = trimStart ((trimEnd t).dropWhile (!isSpace ·)) := by
  rw [afterFirstWord, ← List.nil_append (word ++ t), trim_word_append (by simp [Blank]) h,
    List.dropWhile_append_of_pos fun c hc => by simp [isSpace_of_mem_word h c hc]]

theorem NoLead.firstWord_isPrefix (h : NoLead t) : firstWord t <+: t := by
  obtain ⟨trail, -, htrail⟩ := exists_trimEnd t
  rw [firstWord, trim, h.trimStart_eq]
  exact (List.takeWhile_prefix _).trans ⟨trail, htrail.symm⟩

/-- A word at the start of two parts lies in the first one, unless it holds the character between
them. -/
theorem prefix_of_prefix_append {a b : Text} (h : word <+: a ++ b) (hb : ∀ c ∈ b.head?, c ∉ word) :
    word <+: a := by
  rcases List.prefix_or_prefix_of_prefix h (List.prefix_append a b) with hword | ⟨r, rfl⟩
  · exact hword
  · cases r with
    | nil => simp
    | cons c r =>
      obtain ⟨x, rfl⟩ := (List.prefix_append_right_inj a).mp h
      exact absurd (by simp) (hb c rfl)

/-! ## Lines -/

/-- The word with which the line starts, behind white space, is in another case. -/
def WordRecased (word line other : Text) : Prop :=
  ∃ lead spelled rest, Blank lead ∧ line = lead ++ (word ++ rest) ∧
    other = lead ++ (spelled ++ rest) ∧ foldCase spelled = foldCase word

/-- On some of the lines the word at the start is in another case: on those where it is a `keyword`,
with the number of lines above it. -/
structure RecasedAt (keyword : Nat → Text → Prop) (ls ks : List Text) : Prop where
  length_eq : ks.length = ls.length
  line : ∀ n l k, ls[n]? = some l → ks[n]? = some k →
    k = l ∨ ∃ word, keyword n word ∧ WordRecased word l k

variable {keyword : Nat → Text → Prop}

theorem RecasedAt.mono {keyword' : Nat → Text → Prop} (h : RecasedAt keyword ls ks)
    (himp : ∀ n < ls.length, ∀ word, keyword n word → keyword' n word) :
    RecasedAt keyword' ls ks := by
  refine ⟨h.length_eq, fun n l k hl hk => (h.line n l k hl hk).imp_right ?_⟩
  rintro ⟨word, hkey, hword⟩
  exact ⟨word, himp n (List.getElem?_eq_some_iff.mp hl).1 word hkey, hword⟩

/-- Lines can be taken in portions. -/
theorem RecasedAt.exists_append (h : RecasedAt keyword (ls ++ more) ks) :
    ∃ ks' more', ks = ks' ++ more' ∧ RecasedAt keyword ls ks' ∧
      RecasedAt (fun n => keyword (ls.length + n)) more more' := by
  have hlength := h.length_eq
  rw [List.length_append] at hlength
  have htake : (ks.take ls.length).length = ls.length := by
    rw [List.length_take]
    omega
  refine ⟨ks.take ls.length, ks.drop ls.length, (List.take_append_drop ..).symm,
    ⟨htake, fun n l k hl hk => ?_⟩, ⟨by rw [List.length_drop]; omega, fun n l k hl hk => ?_⟩⟩
  · have hn := (List.getElem?_eq_some_iff.mp hl).1
    rw [List.getElem?_take_of_lt hn] at hk
    exact h.line n l k (by rwa [List.getElem?_append_left hn]) hk
  · rw [List.getElem?_drop] at hk
    refine h.line (ls.length + n) l k ?_ hk
    rwa [List.getElem?_append_right (Nat.le_add_right ..), Nat.add_sub_cancel_left]

theorem RecasedAt.eq_of_not (h : RecasedAt keyword ls ks)
    (hnot : ∀ n < ls.length, ∀ word, ¬ keyword n word) : ks = ls := by
  refine List.ext_getElem h.length_eq fun n hk hl => ?_
  rcases h.line n _ _ (List.getElem?_eq_getElem hl) (List.getElem?_eq_getElem hk) with
    heq | ⟨word, hkey, -⟩
  · exact heq
  · exact absurd hkey (hnot n hl word)

theorem RecasedAt.exists_cons (h : RecasedAt keyword (l :: ls) ks) :
    ∃ k ks', ks = k :: ks' ∧ (k = l ∨ ∃ word, keyword 0 word ∧ WordRecased word l k) ∧
      RecasedAt (fun n => keyword (n + 1)) ls ks' := by
  obtain ⟨hlength, hline⟩ := h
  cases ks with
  | nil => cases hlength
  | cons k ks =>
    exact ⟨k, ks, rfl, hline 0 l k rfl rfl, Nat.succ.inj hlength, fun n => hline (n + 1)⟩

end Dockerfile.Text
