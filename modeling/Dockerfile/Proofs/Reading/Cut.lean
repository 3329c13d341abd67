import Dockerfile.Proofs.Reading.Append
import Dockerfile.Proofs.Reading.Fields
import Dockerfile.Proofs.Statement.Cut

/-!
# One line in two parts

Outside of heredocs, a line of an instruction may be cut in two at a space, if the escape character
continues the first part. The cut may lie inside quotes, in a flag or between two heredocs.

* `Escape.effective_append_cons`: the lines behind one that is no directive select no escape
  character.
* `Statement.CutAt.exists_lines`: the lines of the text with the cut.
* `Reader.byLines_cut`: the instructions are the same, and the later ones stand further down.
-/

namespace Dockerfile

open Text

variable {escape : Char} {a b above below : Text}

namespace Escape

variable {n : Nat} {line : Text} {ls more : List Text}

theorem effectiveFrom_append_cons (h : Directive.ofLine? line = none) :
    effectiveFrom escape n (ls ++ line :: more) = effectiveFrom escape n ls := by
  induction ls generalizing escape n with
  | nil => simp only [List.nil_append, effectiveFrom, h]
  | cons l ls ih => simp only [List.cons_append, effectiveFrom, ih]

theorem effective_append_cons (h : Directive.ofLine? line = none) :
    effective escape (ls ++ line :: more) = effective escape ls :=
  effectiveFrom_append_cons h

end Escape

namespace Statement

namespace CutAt

variable (h : CutAt a b)
include h

/-- A line with a cut is no directive. -/
theorem ofLine?_eq_none : Directive.ofLine? (a ++ ' ' :: b) = none := by
  by_contra hne
  have hskipped := isSkipped_of_ofLine?_ne_none hne
  rw [h.not_isSkipped_line] at hskipped
  cases hskipped

theorem dropReturn : CutAt a (dropReturn b) := by
  obtain ⟨c, b, rfl⟩ := List.exists_cons_of_ne_nil h.part_ne_nil
  have hc := noLead_cons.mp h.noLead
  obtain ⟨rest, hrest⟩ := exists_dropReturn_cons (l := b) (ne_of_isSpace (by decide) hc).symm
  rw [hrest]
  exact ⟨h.noTrail, h.ne_nil, h.not_comment, noLead_cons.mpr hc, List.cons_ne_nil c rest,
    h.part_not_comment⟩

/-- The lines of the text with the whole line, and with its two parts. -/
theorem exists_lines (hescape : Escape.isValid escape) (hfeed : '\n' ∉ a ++ ' ' :: b)
    (habove : ∀ c ∈ above.getLast?, c = '\n') (hbelow : ∀ c ∈ below.head?, c = '\n') :
    ∃ part rest, CutAt a part ∧
      lines (above ++ (a ++ ' ' :: b) ++ below) = lines above ++ (a ++ ' ' :: part) :: rest ∧
      lines (above ++ (a ++ ' ' :: escape :: '\n' :: b) ++ below) =
        lines above ++ (a ++ [' ', escape]) :: part :: rest := by
  have hspace := noLead_cons.mp (h.escape_part hescape).noLead
  have hwhole := lines_line_append hfeed (by simp) hbelow
  simp only [List.mem_append, List.mem_cons, not_or] at hfeed
  have hpart := lines_line_append hfeed.2.2 h.part_ne_nil hbelow
  have hfirst : '\n' ∉ a ++ [' ', escape] := by
    simpa [hfeed.1] using ne_of_isSpace (by decide) hspace
  have hreturn : (a ++ [' ', escape]).getLast? ≠ some '\r' := by
    simpa using (ne_of_isSpace (by decide) hspace).symm
  have hparts : lines (a ++ ' ' :: escape :: '\n' :: b ++ below) =
      (a ++ [' ', escape]) :: lines (b ++ below) := by
    rw [← dropReturn_of_getLast?_ne hreturn, ← lines_append_lineFeed hfirst]
    simp
  have hdrop : Text.dropReturn (a ++ ' ' :: b) = a ++ ' ' :: Text.dropReturn b := by
    rw [List.append_cons, dropReturn_append h.part_ne_nil, ← List.append_cons]
  rw [List.append_assoc above, List.append_assoc above, lines_append_of_ended habove,
    lines_append_of_ended habove, hwhole, hparts, hpart, hdrop]
  by_cases hnil : below = []
  · exact ⟨b, lines below.tail, h, by rw [if_pos hnil], by rw [if_pos hnil]⟩
  · exact ⟨Text.dropReturn b, lines below.tail, h.dropReturn, by rw [if_neg hnil],
      by rw [if_neg hnil]⟩

end CutAt

end Statement

namespace Reader

variable {options : ReadOptions} {is : List Instruction}

/-- Outside of heredocs, the line with the text `a`, a space and the text `b` may be continued at the
space. The instructions are the same, and those that start behind the line start one line further
down. -/
theorem byLines_cut
    (h : (byLines options (above ++ (a ++ ' ' :: b) ++ below)).value = .ok is)
    (hoptions : Escape.isValid options.escape)
    (hescape : Escape.effective options.escape (lines (above ++ (a ++ ' ' :: b) ++ below)) =
      .ok escape)
    (habove : ∀ c ∈ above.getLast?, c = '\n') (hbelow : ∀ c ∈ below.head?, c = '\n')
    (hfeed : '\n' ∉ a ++ ' ' :: b) (hcut : Statement.CutAt a b)
    (hheredoc : ∀ i ∈ is, ¬ i.HasHeredocAt (lines above).length) :
    ∃ js, (byLines options (above ++ (a ++ ' ' :: escape :: '\n' :: b) ++ below)).value = .ok js ∧
      js.map (fun j => (j.name, j.flags, j.values, j.source, j.first)) =
        is.map (fun i => (i.name, i.flags, i.values, i.source,
          if (lines above).length + 1 < i.first then i.first + 1 else i.first)) := by
  have hvalid := Escape.isValid_of_effective hoptions hescape
  obtain ⟨_, ss, hescape', hss, hne, hnames, rfl⟩ := byLines_eq_ok.mp h
  rw [hescape] at hescape'
  cases hescape'
  have hbodies : ∀ s ∈ ss, ¬ s.HasHeredocAt (lines above).length := fun s hs hat =>
    hheredoc _ (List.mem_map_of_mem hs) ((Statement.hasHeredocAt_toInstruction hss hs).mpr hat)
  obtain ⟨part, rest, hpart, hwhole, hparts⟩ := hcut.exists_lines hvalid hfeed habove hbelow
  rw [hwhole] at hescape hss
  obtain ⟨ts, hts, hfields⟩ := Statement.exists_ofLines_cut hpart hvalid hss hbodies
  rw [← hparts] at hts
  refine exists_byLines_of_fields hne hnames ?_ hts hfields
  rw [hparts, Escape.effective_append_cons (hpart.escape_part hvalid).ofLine?_eq_none,
    ← Escape.effective_append_cons hpart.ofLine?_eq_none, hescape]

/-- A directive and an instruction. -/
def directedText : Text := "# escape=`\nFROM a\n".toList

/-- A flag with open quotes, and the escape character inside them. -/
def flagText : Text := "COPY --x=\"p `".toList

/-- The other part of the line opens a heredoc and goes on. -/
def openedText : Text := "q\" <<E `\r".toList

/-- The rest of the header, the heredoc and another instruction. -/
def closedText : Text := "\n/z\nkeep ` y\nE\nUSER b".toList

theorem byLines_cut_flagText :
    ∃ is js,
      (byLines {} (directedText ++ (flagText ++ ' ' :: openedText) ++ closedText)).value = .ok is ∧
      is.map (·.first) = [2, 3, 7] ∧
      (byLines {} (directedText ++ (flagText ++ ' ' :: '\x60' :: '\n' :: openedText) ++
        closedText)).value = .ok js ∧
      js.map (fun j => (j.name, j.flags, j.values, j.source, j.first)) =
        is.map (fun i => (i.name, i.flags, i.values, i.source,
          if 2 + 1 < i.first then i.first + 1 else i.first)) := by
  have h : (byLines {} (directedText ++ (flagText ++ ' ' :: openedText) ++ closedText)).value =
      .ok ((byLines {} (directedText ++ (flagText ++ ' ' :: openedText) ++
        closedText)).value.toOption.getD []) := by
    decide +kernel
  have hescape : Escape.effective defaultEscape
      (lines (directedText ++ (flagText ++ ' ' :: openedText) ++ closedText)) = .ok '\x60' := by
    decide +kernel
  have hcut : Statement.CutAt flagText openedText :=
    ⟨by decide, by decide, by decide, by decide, by decide, by decide⟩
  have habove : directedText.getLast? = some '\n' := by decide
  have hbelow : closedText.head? = some '\n' := by decide
  obtain ⟨js, hjs, hfields⟩ := byLines_cut h (by decide) hescape (by simp [habove])
    (by simp [hbelow]) (by decide) hcut (by decide +kernel)
  exact ⟨_, js, h, by decide +kernel, hjs, hfields⟩

end Reader

end Dockerfile
