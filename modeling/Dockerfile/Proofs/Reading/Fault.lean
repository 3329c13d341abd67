import Dockerfile.Proofs.Reading
import Dockerfile.Proofs.Statement.Division

/-!
# Which texts are rejected, and at which line

A faulty directive comes before every other fault, a heredoc without its terminator before every
keyword, and a text without statements is the last thing to be noticed. The line that is reported
is the one where the fault starts.

* `Reader.FaultAt`, `Reader.Void`: the faults in this order, each with its line.
* `Reader.byLines_rejects_iff`: a text is rejected for the first of them, and accepted if there is
  none.
-/

namespace Dockerfile

open Text

/-- A directive starts with a number sign. -/
theorem Directive.not_blank {line : Text} {d : Directive} (h : ofLine? line = some d) :
    ¬ Blank line := by
  intro hblank
  rw [ofLine?, trim, trimStart_of_blank hblank] at h
  cases h

namespace Statement

variable {escape : Char} {n : Nat} {ls header : List Text} {marker : Heredoc}

theorem StartsBusy.busy {below : List Text} (h : StartsBusy header) :
    Busy (ls ++ (header ++ below)) (ls.length + 1) := by
  obtain ⟨line, hline, hbusy⟩ := h
  cases header with
  | nil => cases hline
  | cons l header =>
    cases hline
    exact ⟨ls.length, line, rfl, by simp, hbusy⟩

theorem UnterminatedAt.busy (h : UnterminatedAt escape marker ls n) : Busy ls n := by
  obtain ⟨-, hstart, -, -⟩ := h
  exact hstart.busy

end Statement

namespace Reader

open Statement

variable {escape : Char} {ls : List Text} {n : Nat} {e : Error}

/-- The fault for which the lines are rejected: an escape directive without a valid value, else a
heredoc without its terminator, else a statement without a keyword. -/
inductive FaultAt (escape : Char) (ls : List Text) : Nat → Error → Prop
  | directive {n : Nat} {value : Text} :
      Escape.FaultyAt ls n value → FaultAt escape ls n (.badEscape n value)
  | heredoc {n : Nat} {c : Char} {marker : Heredoc} :
      (∀ n value, ¬ Escape.FaultyAt ls n value) → Escape.effective escape ls = .ok c →
      UnterminatedAt c marker ls n → FaultAt escape ls n (.openHeredoc n marker.word)
  | keyword {c : Char} {ss : List Statement} {s : Statement} :
      (∀ n value, ¬ Escape.FaultyAt ls n value) → Escape.effective escape ls = .ok c →
      (∀ marker n, ¬ UnterminatedAt c marker ls n) → Division c ls ss → Statement.FaultyAt ss s →
      FaultAt escape ls s.first (.badKeyword s.first s.name)

/-- The lines have no statement. -/
def Void (escape : Char) (ls : List Text) : Prop :=
  ∃ c, Escape.effective escape ls = .ok c ∧ Division c ls []

theorem exists_faultAt_iff :
    (∃ n, FaultAt escape ls n e) ↔
      Escape.effective escape ls = .error e ∨
      ∃ c, Escape.effective escape ls = .ok c ∧
        (ofLines c ls = .error e ∨
        ∃ ss, ofLines c ls = .ok ss ∧ (instructions ss).value = .error e) := by
  constructor
  · rintro ⟨n, h⟩
    cases h with
    | directive h => exact .inl (Escape.effective_eq_error_iff.mpr ⟨_, _, h, rfl⟩)
    | heredoc _ hescape h =>
      exact .inr ⟨_, hescape, .inl (ofLines_eq_error_iff_unterminatedAt.mpr ⟨_, _, h, rfl⟩)⟩
    | keyword _ hescape _ hss h =>
      exact .inr ⟨_, hescape, .inr ⟨_, ofLines_eq_ok_iff_division.mpr hss,
        instructions_eq_error_iff.mpr ⟨_, h, rfl⟩⟩⟩
  · rintro (hescape | ⟨c, hescape, hrest⟩)
    · obtain ⟨n, value, h, rfl⟩ := Escape.effective_eq_error_iff.mp hescape
      exact ⟨n, .directive h⟩
    · have hdirective (n : Nat) (value : Text) : ¬ Escape.FaultyAt ls n value := fun h => by
        rw [Escape.effective_eq_error_iff.mpr ⟨n, value, h, rfl⟩] at hescape
        cases hescape
      rcases hrest with hss | ⟨ss, hss, his⟩
      · obtain ⟨marker, n, h, rfl⟩ := ofLines_eq_error_iff_unterminatedAt.mp hss
        exact ⟨n, .heredoc hdirective hescape h⟩
      · have hheredoc (marker : Heredoc) (n : Nat) : ¬ UnterminatedAt c marker ls n := fun h => by
          rw [h.ofLines_eq] at hss
          cases hss
        obtain ⟨s, hs, rfl⟩ := instructions_eq_error_iff.mp his
        exact ⟨s.first, .keyword hdirective hescape hheredoc (ofLines_eq_ok_iff_division.mp hss) hs⟩

theorem void_iff :
    Void escape ls ↔ ∃ c, Escape.effective escape ls = .ok c ∧ ofLines c ls = .ok [] := by
  simp only [Void, ofLines_eq_ok_iff_division]

/-- Without statements there is nothing else to find fault with. -/
theorem Void.not_faultAt (h : Void escape ls) : ¬ FaultAt escape ls n e := by
  obtain ⟨c, hescape, hss⟩ := void_iff.mp h
  intro hfault
  rcases exists_faultAt_iff.mp ⟨n, hfault⟩ with herror | ⟨c', hescape', hrest⟩
  · rw [hescape] at herror
    cases herror
  · rw [hescape] at hescape'
    cases hescape'
    rcases hrest with herror | ⟨ss, hss', his⟩
    · rw [hss] at herror
      cases herror
    · rw [hss] at hss'
      cases hss'
      cases his

/-- The fault lies at a line with something in it. -/
theorem FaultAt.line (h : FaultAt escape ls n e) :
    ∃ detail line, e = .malformed n detail ∧ 1 ≤ n ∧ ls[n - 1]? = some line ∧ ¬ Blank line := by
  have hbusy (h : Busy ls n) : ∃ line, 1 ≤ n ∧ ls[n - 1]? = some line ∧ ¬ Blank line := by
    obtain ⟨k, line, rfl, hline, hidle⟩ := h
    exact ⟨line, Nat.le_add_left 1 k, hline, fun hblank => hidle (.inl hblank)⟩
  cases h with
  | directive h =>
    obtain ⟨above, line, below, d, rfl, -, hline, -, rfl, rfl⟩ := h
    exact ⟨_, line, rfl, Nat.le_add_left 1 _, by simp, Directive.not_blank hline⟩
  | heredoc _ _ h => exact ⟨_, (hbusy h.busy).imp fun _ hline => ⟨rfl, hline⟩⟩
  | @keyword c ss s _ _ _ hss h =>
    obtain ⟨before, after, rfl, -, -⟩ := h
    have hfirst := (ofLines_covers (ofLines_eq_ok_iff_division.mpr hss)).1 s (by simp)
    exact ⟨_, (hbusy hfirst).imp fun _ hline => ⟨rfl, hline⟩⟩

variable {options : ReadOptions} {text : Text}

theorem byLines_eq_error_iff_faultAt :
    (byLines options text).value = .error e ↔
      (∃ n, FaultAt options.escape (lines text) n e) ∨
      Void options.escape (lines text) ∧ e = .noInstructions (lines text).length := by
  rw [byLines_eq_error_iff, exists_faultAt_iff, void_iff]
  constructor
  · rintro (hescape | ⟨c, hescape, hss | ⟨ss, hss, his | ⟨rfl, he⟩⟩⟩)
    · exact .inl (.inl hescape)
    · exact .inl (.inr ⟨c, hescape, .inl hss⟩)
    · exact .inl (.inr ⟨c, hescape, .inr ⟨ss, hss, his⟩⟩)
    · exact .inr ⟨⟨c, hescape, hss⟩, he⟩
  · rintro ((hescape | ⟨c, hescape, hss | ⟨ss, hss, his⟩⟩) | ⟨⟨c, hescape, hss⟩, he⟩)
    · exact .inl hescape
    · exact .inr ⟨c, hescape, .inl hss⟩
    · exact .inr ⟨c, hescape, .inr ⟨ss, hss, .inl his⟩⟩
    · exact .inr ⟨c, hescape, .inr ⟨[], hss, .inr ⟨rfl, he⟩⟩⟩

/-- A text is rejected for its fault, else if it has no statement, and accepted otherwise. The line
that is reported is the one with the fault, which is not blank, or the last one. -/
theorem byLines_rejects_iff (options : ReadOptions) (text : Text) :
    (∀ e, (byLines options text).value = .error e ↔
      (∃ n, FaultAt options.escape (lines text) n e) ∨
      (∀ n e, ¬ FaultAt options.escape (lines text) n e) ∧ Void options.escape (lines text) ∧
        e = .noInstructions (lines text).length) ∧
    ((∃ is, (byLines options text).value = .ok is) ↔
      (∀ n e, ¬ FaultAt options.escape (lines text) n e) ∧ ¬ Void options.escape (lines text)) ∧
    (∀ n e, FaultAt options.escape (lines text) n e → ∃ detail line, e = .malformed n detail ∧
      1 ≤ n ∧ (lines text)[n - 1]? = some line ∧ ¬ Blank line) ∧
    ∀ e, (byLines options text).value = .error e →
      ∃ n detail, e = .malformed n detail ∧ 1 ≤ n ∧ n ≤ max 1 (lines text).length := by
  refine ⟨fun e => ?_, ?_, fun n e h => h.line, fun e he => ?_⟩
  · rw [byLines_eq_error_iff_faultAt]
    refine or_congr_right ⟨fun ⟨hvoid, he⟩ => ⟨fun n e => hvoid.not_faultAt, hvoid, he⟩, And.right⟩
  · cases hread : (byLines options text).value with
    | error e =>
      simp only [reduceCtorEq, exists_const, false_iff, not_and_not_right]
      intro hfault
      rcases byLines_eq_error_iff_faultAt.mp hread with ⟨n, h⟩ | ⟨hvoid, -⟩
      · exact absurd h (hfault n e)
      · exact hvoid
    | ok is =>
      refine iff_of_true ⟨is, rfl⟩ ⟨fun n e h => ?_, fun hvoid => ?_⟩
      · rw [byLines_eq_error_iff_faultAt.mpr (.inl ⟨n, h⟩)] at hread
        cases hread
      · rw [byLines_eq_error_iff_faultAt.mpr (.inr ⟨hvoid, rfl⟩)] at hread
        cases hread
  · rcases byLines_eq_error_iff_faultAt.mp he with ⟨n, h⟩ | ⟨-, rfl⟩
    · obtain ⟨detail, line, rfl, hone, hline, -⟩ := h.line
      have hlt := (List.getElem?_eq_some_iff.mp hline).1
      exact ⟨n, detail, rfl, hone, by omega⟩
    · exact ⟨_, _, rfl, Nat.le_max_left 1 _, Nat.le_refl _⟩

/-- A text whose second line starts with no keyword. The instruction at its fourth line opens two
heredocs, and the second of them has no terminator. -/
def faultyText : Text :=
  "from a
- b
# c
RUN <<A \\
 <<B

A
b
".toList

/-- The heredoc is reported, not the keyword above it. -/
theorem byLines_rejects_faultyText :
    ∃ n, FaultAt '\\' (lines faultyText) n (.openHeredoc 4 ['B']) := by
  have h : (byLines {} faultyText).value = .error (.openHeredoc 4 ['B']) := by decide +kernel
  rcases ((byLines_rejects_iff {} faultyText).1 _).mp h with hfault | ⟨-, -, he⟩
  · exact hfault
  · exact absurd he (by decide +kernel)

end Reader

end Dockerfile
