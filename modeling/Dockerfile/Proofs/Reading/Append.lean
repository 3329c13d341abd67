import Dockerfile.Proofs.Directive
import Dockerfile.Proofs.Reading
import Dockerfile.Proofs.Statement.Shift

/-!
# Texts one below the other

A text that does not end in the middle of a statement can be read by itself: nothing of it is left
behind for the text below it but the escape character.

* `Escape.effective_append`: the directives of a text end at its first other line.
* `Statement.exists_ofLine?_eq_none`: a text with a statement has such a line.
* `Reader.byLines_append`: the instructions of two texts, one below the other, are those of the
  first and then those of the second, further down.
-/

namespace Dockerfile

open Text

namespace Escape

variable {escape : Char} {n : Nat} {lines more : List Text}

theorem effectiveFrom_append (h : ∃ line ∈ lines, Directive.ofLine? line = none) :
    effectiveFrom escape n (lines ++ more) = effectiveFrom escape n lines := by
  induction lines generalizing escape n with
  | nil => simp at h
  | cons line lines ih =>
    rw [List.cons_append, effectiveFrom, effectiveFrom]
    cases hline : Directive.ofLine? line with
    | none => rfl
    | some d =>
      have hlines : ∃ line ∈ lines, Directive.ofLine? line = none := by
        obtain ⟨other, hmem, hother⟩ := h
        rcases List.mem_cons.mp hmem with rfl | hmem
        · rw [hline] at hother
          cases hother
        · exact ⟨other, hmem, hother⟩
      simp only [ih hlines]

/-- Only the lines before the first one that is no directive decide. -/
theorem effective_append (h : ∃ line ∈ lines, Directive.ofLine? line = none) :
    effective escape (lines ++ more) = effective escape lines :=
  effectiveFrom_append h

end Escape

namespace Statement

variable {escape : Char} {lines : List Text} {ss : List Statement}

/-- A directive is a comment. -/
theorem isSkipped_of_ofLine?_ne_none {line : Text} (h : Directive.ofLine? line ≠ none) :
    isSkipped (trim line) := by
  unfold Directive.ofLine? at h
  split at h
  · rename_i body hbody
    rw [hbody]
    rfl
  · contradiction

theorem exists_ofLine?_eq_none (h : ofLines escape lines = .ok ss) (hne : ss ≠ []) :
    ∃ line ∈ lines, Directive.ofLine? line = none := by
  by_contra hall
  have hskipped : ∀ line ∈ lines, isSkipped (trim line) := fun line hmem =>
    isSkipped_of_ofLine?_ne_none fun hnone => hall ⟨line, hmem, hnone⟩
  obtain ⟨last, hlast, rfl⟩ := ofLines_eq_ok.mp h
  rw [Phase.run_skipped hskipped] at hlast hne
  cases hlast
  contradiction

end Statement

/-- The instruction on lines that stand `k` lines further down. -/
def Instruction.shift (k : Nat) (i : Instruction) : Instruction :=
  { i with first := i.first + k, last := i.last + k }

theorem Statement.toInstruction_shift (k : Nat) (s : Statement) :
    (s.shift k).toInstruction = s.toInstruction.shift k := rfl

namespace Reader

variable {options : ReadOptions} {above below : Text} {is js : List Instruction} {escape : Char}

/-- A text that ends between statements, and another one below it that selects no escape character
of its own, hold the instructions of both. Those of the second stand further down. -/
theorem byLines_append (habove : (byLines options above).value = .ok is)
    (hfeed : above.getLast? ≠ some '\n') (hreturn : above.getLast? ≠ some '\r')
    (hescape : Escape.effective options.escape (lines above) = .ok escape)
    (hclosed : (Statement.Phase.between.run escape 1 (lines above)).1 = .between)
    (hundirected : Escape.Undirected (lines below))
    (hbelow : (byLines { escape } below).value = .ok js) :
    (byLines options (above ++ '\n' :: below)).value =
      .ok (is ++ js.map (·.shift (lines above).length)) := by
  obtain ⟨_, ss, hescape', hss, hne, hnames, rfl⟩ := byLines_eq_ok.mp habove
  rw [hescape] at hescape'
  cases hescape'
  obtain ⟨_, ts, hescape', hts, -, hnames', rfl⟩ := byLines_eq_ok.mp hbelow
  rw [Escape.effective_of_undirected hundirected] at hescape'
  cases hescape'
  have htext : above ≠ [] := by
    rintro rfl
    cases hss
    contradiction
  have hlines := lines_append (u := below) htext hfeed hreturn
  refine byLines_eq_ok.mpr ⟨escape, ss ++ ts.map (Statement.shift (lines above).length),
    ?_, ?_, by simp [hne], ?_, ?_⟩
  · rw [hlines, Escape.effective_append (Statement.exists_ofLine?_eq_none hss hne), hescape]
  · rw [hlines]
    exact Statement.ofLines_append hclosed hss hts
  · refine List.forall_mem_append.mpr ⟨hnames, fun s hs => ?_⟩
    obtain ⟨t, ht, rfl⟩ := List.mem_map.mp hs
    exact hnames' t ht
  · rw [List.map_append, List.map_map, List.map_map]
    exact congrArg (_ ++ ·) (List.map_congr_left fun t _ => (t.toInstruction_shift _).symm)

/-- A directive, a statement in two parts and a heredoc with a directive-like line. -/
def upperText : Text := "# escape=`\nFROM a `\n  AS b\nRUN <<E\n# escape=\\\nE".toList

/-- A comment, an empty line and a statement that stays open. -/
def lowerText : Text := "# note\n\nLABEL k=v \\ `\n  n=1 `".toList

theorem byLines_append_lowerText :
    ∃ is js, (byLines {} upperText).value = .ok is ∧
      (byLines { escape := '\x60' } lowerText).value = .ok js ∧
      (byLines {} (upperText ++ '\n' :: lowerText)).value = .ok (is ++ js.map (·.shift 6)) := by
  have hupper : (byLines {} upperText).value =
      .ok ((byLines {} upperText).value.toOption.getD []) := by
    decide +kernel
  have hlower : (byLines { escape := '\x60' } lowerText).value =
      .ok ((byLines { escape := '\x60' } lowerText).value.toOption.getD []) := by
    decide +kernel
  exact ⟨_, _, hupper, hlower, byLines_append hupper (by decide) (by decide) (by decide +kernel)
    (by decide +kernel) (by decide +kernel) hlower⟩

end Reader

end Dockerfile
