import Dockerfile.Proofs.Reading
import Dockerfile.Proofs.Statement.Coverage

/-!
# Which lines the instructions cover

The instructions of a text cover disjoint runs of its lines, and each run starts with a line that
has something to read. Outside of them stand blank lines and comments, and lines at the end of the
text that consist of the escape character.

* `Reader.byLines_spans`: all of this, with the bounds of the lines.
-/

namespace Dockerfile

namespace Reader

open Statement

/-- The instructions of a text cover disjoint runs of its lines, which start with a line that has
something to read. The other lines are idle, or consist of the escape character and follow the last
instruction. -/
theorem byLines_spans {options : ReadOptions} {text : Text} {is : List Instruction}
    (h : (byLines options text).value = .ok is) :
    ∃ escape, Escape.effective options.escape (Text.lines text) = .ok escape ∧
      (∀ i ∈ is, 1 ≤ i.first ∧ i.first ≤ i.last ∧ i.last ≤ (Text.lines text).length) ∧
      is.Pairwise (fun i j => i.last < j.first) ∧
      (∀ i ∈ is, ∃ k line, i.first = k + 1 ∧ (Text.lines text)[k]? = some line ∧ ¬ Idle line) ∧
      ∀ k line, (Text.lines text)[k]? = some line →
        (∀ i ∈ is, ¬ (i.first ≤ k + 1 ∧ k + 1 ≤ i.last)) →
        Idle line ∨ Text.trim line = [escape] ∧ ∀ i ∈ is, i.last < k + 1 := by
  obtain ⟨escape, ss, hescape, hss, -, -, rfl⟩ := byLines_eq_ok.mp h
  obtain ⟨hordered, hspanned⟩ := ofLines_spans hss
  obtain ⟨hbusy, hidle⟩ := ofLines_covers hss
  simp only [List.forall_mem_map, List.pairwise_map]
  refine ⟨escape, hescape, fun s hs => ?_, hordered, hbusy, hidle⟩
  obtain ⟨hs', hlast⟩ := hspanned s hs
  exact ⟨hs'.one_le_first, hs'.first_le_last, hlast⟩

/-- A text with comments and blank lines between and inside instructions, a heredoc, lines that
consist of the escape character, and such lines at its end. -/
def looseText : Text :=
  "# base

from a ^

 # note
 ^
  as b
RUN <<E
# kept

E
^
user c

^
# end
 ^ ".toList

theorem byLines_spans_looseText :
    ∃ is, (byLines { escape := '^' } looseText).value = .ok is ∧
      ∃ escape, Escape.effective '^' (Text.lines looseText) = .ok escape ∧
        (∀ i ∈ is, 1 ≤ i.first ∧ i.first ≤ i.last ∧ i.last ≤ (Text.lines looseText).length) ∧
        is.Pairwise (fun i j => i.last < j.first) ∧
        (∀ i ∈ is, ∃ k line, i.first = k + 1 ∧ (Text.lines looseText)[k]? = some line ∧
          ¬ Idle line) ∧
        ∀ k line, (Text.lines looseText)[k]? = some line →
          (∀ i ∈ is, ¬ (i.first ≤ k + 1 ∧ k + 1 ≤ i.last)) →
          Idle line ∨ Text.trim line = [escape] ∧ ∀ i ∈ is, i.last < k + 1 := by
  have h : (byLines { escape := '^' } looseText).value =
      .ok ((byLines { escape := '^' } looseText).value.toOption.getD []) := by
    decide +kernel
  exact ⟨_, h, byLines_spans h⟩

end Reader

end Dockerfile
