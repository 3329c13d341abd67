import Dockerfile.Proofs.Text.Line
import Dockerfile.Proofs.Text.Trim
import Dockerfile.Statement

/-!
# The moves of the statement reader

What the reader can do with one physical line, said once, and how a property of all reachable
phases follows from it.

* `Statement.Phase.Move`, `Statement.Phase.move_step`: the moves, and that each step is one.
* `Statement.Phase.run_invariant`: what every move keeps holds after any number of lines.
* `Statement.ofLines_eq_ok`, `Statement.ofLines_eq_error`: the statements of a text are those of the
  run, and an open one, unless a heredoc is open.
-/

namespace Dockerfile.Statement

open Text

variable {escape : Char} {n : Nat} {line : Text} {pieces : List Text}

/-! ## Pieces -/

theorem joinPieces_cons (h : pieces ≠ []) :
    joinPieces (line :: pieces) = joinPieces pieces ++ ' ' :: line := by
  rw [joinPieces, List.reverse_cons, joinWith_append (by simpa using h) (by simp),
    List.append_assoc]
  rfl

theorem joinPieces_ne_nil (h : line ≠ []) : joinPieces (line :: pieces) ≠ [] := by
  by_cases hp : pieces = []
  · subst hp
    exact h
  · simp [joinPieces_cons hp]

/-- A trimmed line that goes on ends in the escape character. -/
theorem piece_of_continues (h : (piece escape line).2 = true) :
    ∃ before, line = before ++ [escape] ∧ (piece escape line).1 = trimEnd before := by
  unfold piece dropEnd? at h ⊢
  by_cases he : line.getLast? = some escape
  · refine ⟨line.dropLast, ?_, by simp [he]⟩
    have hne : line ≠ [] := by
      rintro rfl
      cases he
    rw [List.getLast?_eq_some_getLast hne, Option.some.injEq] at he
    rw [← he, List.dropLast_concat_getLast hne]
  · simp [he] at h

/-- A line that does not go on is its own piece. -/
theorem piece_of_not_continues (h : (piece escape line).2 = false) :
    (piece escape line).1 = line ∧ line.getLast? ≠ some escape := by
  unfold piece dropEnd? at h ⊢
  by_cases he : line.getLast? = some escape
  · simp [he] at h
  · simp [he]

theorem piece_of_getLast?_ne (h : line.getLast? ≠ some escape) :
    piece escape line = (line, false) := by
  simp [piece, dropEnd?, h]

namespace Phase

/-- The statement that the next line with something to read belongs to, where that line has the
number `n`: its pieces so far and its first line. -/
inductive Open (n : Nat) : Phase → List Text → Nat → Prop
  | between : Open n between [] n
  | joining (pieces : List Text) (first last : Nat) :
      Open n (joining pieces first last) pieces first

/-- What the reader does with one line, which has the number `n`. -/
inductive Move (escape : Char) (n : Nat) (line : Text) : Phase → Phase → List Statement → Prop
  /-- A line without an instruction between statements. -/
  | skip : isSkipped (trim line) → Move escape n line between between []
  /-- A line without an instruction inside a statement. -/
  | inner (pieces : List Text) (first last : Nat) : isSkipped (trim line) →
      Move escape n line (joining pieces first last) (joining pieces first n) []
  /-- A line that the next one continues. -/
  | goesOn {phase : Phase} {pieces : List Text} {first : Nat} (before : Text) :
      Open n phase pieces first → isSkipped (trim line) = false →
      trim line = before ++ [escape] →
      Move escape n line phase (joining (addPiece (trimEnd before) pieces) first n) []
  /-- The last line of a statement without heredocs. -/
  | plain {phase : Phase} {pieces : List Text} {first : Nat} :
      Open n phase pieces first → isSkipped (trim line) = false →
      (trim line).getLast? ≠ some escape →
      Heredoc.openedBy (joinPieces (trim line :: pieces)) = [] →
      Move escape n line phase between
        [{ text := joinPieces (trim line :: pieces), first, last := n }]
  /-- The last line of a statement before its heredocs. -/
  | opens {phase : Phase} {pieces : List Text} {first : Nat} (marker : Heredoc)
      (later : List Heredoc) :
      Open n phase pieces first → isSkipped (trim line) = false →
      (trim line).getLast? ≠ some escape →
      Heredoc.openedBy (joinPieces (trim line :: pieces)) = marker :: later →
      Move escape n line phase
        (inHeredoc (joinPieces (trim line :: pieces)) first marker later []) []
  /-- A line of a heredoc. -/
  | body (text : Text) (first : Nat) (marker : Heredoc) (later : List Heredoc) (body : List Text) :
      marker.closes line = false →
      Move escape n line (inHeredoc text first marker later body)
        (inHeredoc text first marker later (line :: body)) []
  /-- The terminator of a heredoc with another one behind it. -/
  | next (text : Text) (first : Nat) (marker next : Heredoc) (later : List Heredoc)
      (body : List Text) : marker.closes line →
      Move escape n line (inHeredoc text first marker (next :: later) body)
        (inHeredoc text first next later (line :: body)) []
  /-- The terminator of the last heredoc. -/
  | terminator (text : Text) (first : Nat) (marker : Heredoc) (body : List Text) :
      marker.closes line →
      Move escape n line (inHeredoc text first marker [] body) between
        [{ text, body := (line :: body).reverse, first, last := n }]

theorem trim_ne_nil_of_not_isSkipped (h : isSkipped (trim line) = false) : trim line ≠ [] := by
  intro hnil
  rw [hnil] at h
  cases h

theorem move_join {phase : Phase} {first : Nat} (hopen : Open n phase pieces first)
    (h : isSkipped (trim line) = false) :
    Move escape n line phase (join escape n pieces first (trim line)).1
      (join escape n pieces first (trim line)).2 := by
  have hne := trim_ne_nil_of_not_isSkipped h
  cases hp : (piece escape (trim line)).2 with
  | true =>
    obtain ⟨before, hline, hpiece⟩ := piece_of_continues hp
    simp only [join, hp, hpiece, if_true]
    exact .goesOn before hopen h hline
  | false =>
    obtain ⟨hpiece, hlast⟩ := piece_of_not_continues hp
    have hadd : addPiece (trim line) pieces = trim line :: pieces := if_neg hne
    simp only [join, hp, hpiece, hadd, close]
    cases hmarkers : Heredoc.openedBy (joinPieces (trim line :: pieces)) with
    | nil =>
      have hkeep : keep { text := joinPieces (trim line :: pieces), first, last := n } =
          [{ text := joinPieces (trim line :: pieces), first, last := n }] :=
        if_neg (joinPieces_ne_nil hne)
      simp only [hkeep]
      exact .plain hopen h hlast hmarkers
    | cons marker later => exact .opens marker later hopen h hlast hmarkers

/-- Each step of the reader is one of the moves. -/
theorem move_step (escape : Char) (n : Nat) (line : Text) (phase : Phase) :
    Move escape n line phase (phase.step escape n line).1 (phase.step escape n line).2 := by
  cases phase with
  | between =>
    cases h : isSkipped (trim line) with
    | true => simpa only [step, h, if_true] using Move.skip h
    | false => simpa only [step, h, Bool.false_eq_true, if_false] using move_join .between h
  | joining pieces first last =>
    cases h : isSkipped (trim line) with
    | true => simpa only [step, h, if_true] using Move.inner pieces first last h
    | false =>
      simpa only [step, h, Bool.false_eq_true, if_false] using
        move_join (.joining pieces first last) h
  | inHeredoc text first marker later body =>
    cases h : marker.closes line with
    | false =>
      simpa only [step, h, Bool.false_eq_true, if_false] using
        Move.body text first marker later body h
    | true =>
      cases later with
      | nil => simpa only [step, h, if_true] using Move.terminator text first marker body h
      | cons next later =>
        simpa only [step, h, if_true] using Move.next text first marker next later body h

/-! ## Runs -/

/-- What every move keeps, of the phase and of the statements so far, holds after any lines. -/
theorem run_invariant {escape : Char} {ls : List Text} (I : Nat → Phase → List Statement → Prop)
    (hmove : ∀ n line phase phase' ss new, line ∈ ls → I n phase ss →
      Move escape n line phase phase' new → I (n + 1) phase' (ss ++ new))
    {n : Nat} {phase : Phase} {ss : List Statement} (h : I n phase ss) :
    I (n + ls.length) (phase.run escape n ls).1 (ss ++ (phase.run escape n ls).2) := by
  induction ls generalizing n phase ss with
  | nil => simpa [run] using h
  | cons line rest ih =>
    have hstep := hmove n line phase _ ss _ List.mem_cons_self h (move_step escape n line phase)
    have hrest := ih (fun m l p p' ts new hl => hmove m l p p' ts new (List.mem_cons_of_mem _ hl))
      hstep
    have hn : n + 1 + rest.length = n + (line :: rest).length := by
      simp only [List.length_cons]
      omega
    rw [hn, List.append_assoc] at hrest
    exact hrest

/-- The same for lines that start between statements. -/
theorem run_between_invariant (escape : Char) (n : Nat) (ls : List Text)
    (I : Nat → Phase → List Statement → Prop)
    (hmove : ∀ n line phase phase' ss new, line ∈ ls → I n phase ss →
      Move escape n line phase phase' new → I (n + 1) phase' (ss ++ new))
    (h : I n between []) :
    I (n + ls.length) (between.run escape n ls).1 (between.run escape n ls).2 := by
  simpa using run_invariant I hmove h

end Phase

/-- Only a statement that goes on may stand open at the end of the text. -/
theorem Phase.finish_eq_ok {phase : Phase} {ss : List Statement} (h : phase.finish = .ok ss) :
    phase = between ∧ ss = [] ∨
      ∃ pieces first last, phase = joining pieces first last ∧
        ss = keep { text := joinPieces pieces, first, last } := by
  cases phase with
  | between =>
    cases h
    exact .inl ⟨rfl, rfl⟩
  | joining pieces first last =>
    cases h
    exact .inr ⟨pieces, first, last, rfl, rfl⟩
  | inHeredoc => cases h

/-- The statements of a text are those that its lines complete, and one that the end of the text
completes. -/
theorem ofLines_eq_ok {lines : List Text} {ss : List Statement} :
    ofLines escape lines = .ok ss ↔
      ∃ last, (Phase.between.run escape 1 lines).1.finish = .ok last ∧
        ss = (Phase.between.run escape 1 lines).2 ++ last := by
  unfold ofLines
  simp only
  cases (Phase.between.run escape 1 lines).1.finish with
  | error e => simp [Except.map]
  | ok last => simp [Except.map, eq_comm]

/-- Only a heredoc that is open at the end of the text is an error. -/
theorem ofLines_eq_error {lines : List Text} {e : Error} :
    ofLines escape lines = .error e ↔
      ∃ text first marker later body,
        (Phase.between.run escape 1 lines).1 = .inHeredoc text first marker later body ∧
          e = .openHeredoc first marker.word := by
  unfold ofLines
  simp only
  cases (Phase.between.run escape 1 lines).1 with
  | between | joining => simp [Phase.finish, Except.map]
  | inHeredoc text first marker later body =>
    constructor
    · intro h
      cases h
      exact ⟨text, first, marker, later, body, rfl, rfl⟩
    · rintro ⟨_, _, _, _, _, hphase, rfl⟩
      cases hphase
      rfl

end Dockerfile.Statement
