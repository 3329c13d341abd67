import Dockerfile.Proofs.Statement.Complete
import Dockerfile.Proofs.Statement.Reread

/-!
# Visible characters

Only white space is lost when a text is taken apart into words and arguments, and only white space
is new when these are written with single spaces between them. So the characters other than white
space can be counted.

* `Text.visible`: their number.
* `Argument.visible_split`, `Argument.visible_spanFlags`: the arguments of a text have as many as
  the text.
* `Statement.Plain.visible_header`: so has the line that an instruction is written on.
* `Statement.Phase.grows_run`: a statement that goes on does not lose any.
-/

namespace Dockerfile

namespace Text

variable {t u : Text} {c : Char}

/-- The number of characters other than white space. -/
def visible (t : Text) : Nat := t.countP (!isSpace ·)

@[simp] theorem visible_nil : visible [] = 0 := rfl

@[simp] theorem visible_append (t u : Text) : visible (t ++ u) = visible t + visible u :=
  List.countP_append

theorem visible_eq_zero_iff : visible t = 0 ↔ Blank t := by
  simp [visible, Blank, List.countP_eq_zero]

@[simp] theorem visible_space_cons (t : Text) : visible (' ' :: t) = visible t :=
  List.countP_cons_of_neg (by decide)

theorem visible_pos (ht : NoLead t) (h : t ≠ []) : 0 < visible t :=
  Nat.pos_of_ne_zero fun hzero => h (ht.eq_nil_of_blank (visible_eq_zero_iff.mp hzero))

@[simp] theorem visible_trimStart (t : Text) : visible (trimStart t) = visible t := by
  obtain ⟨lead, hlead, ht⟩ := exists_trimStart t
  have hzero := visible_eq_zero_iff.mpr hlead
  have hsum := congrArg visible ht
  rw [visible_append] at hsum
  omega

@[simp] theorem visible_trimEnd (t : Text) : visible (trimEnd t) = visible t := by
  obtain ⟨trail, htrail, ht⟩ := exists_trimEnd t
  have hzero := visible_eq_zero_iff.mpr htrail
  have hsum := congrArg visible ht
  rw [visible_append] at hsum
  omega

theorem visible_of_isAlphanum (h : isAlphanum t) : visible t = t.length :=
  List.countP_eq_length.mpr fun c hc => by
    simp [isSpace_of_isAlphanum ((isAlphanum_iff.mp h).2 c hc)]

theorem visible_upper (h : isAlphanum t) : visible (upper t) = visible t := by
  rw [visible_of_isAlphanum (isAlphanum_upper h), visible_of_isAlphanum h, upper_of_isAlphanum h,
    List.length_map]

end Text

namespace Argument

open Text

variable {t a r : Text}

theorem visible_of_next?_some (h : next? t = some (a, r)) : visible t = visible a + visible r := by
  obtain ⟨-, -, lead, sep, hlead, hsep, rfl, -⟩ := next?_eq_some h
  simp [visible_eq_zero_iff.mpr hlead, visible_eq_zero_iff.mpr hsep]

theorem visible_split (t : Text) : visible ((split t).flatMap (' ' :: ·)) = visible t := by
  fun_induction split t with
  | case1 t h =>
    have hblank : Blank t := next?_eq_none_iff.mp h
    rw [List.flatMap_nil, visible_nil, visible_eq_zero_iff.mpr hblank]
  | case2 t a r h ih => simp [visible_of_next?_some h, ih]

theorem visible_spanFlags (t : Text) :
    visible ((spanFlags t).1.flatMap (' ' :: ·)) + visible (spanFlags t).2 = visible t := by
  fun_induction spanFlags t with
  | case1 t h => simp
  | case2 t a r h hflag _ ih =>
    rw [visible_of_next?_some h, ← ih, List.flatMap_cons, visible_append, visible_space_cons,
      Nat.add_assoc]
  | case3 t a r h hflag => simp

end Argument

namespace Statement

open Text Argument

variable {escape : Char} {n v : Nat} {line : Text} {pieces : List Text}

/-! ## Headers -/

theorem visible_lineValues {s : Statement} (h : s.keyword? ≠ some .entrypoint) :
    visible (s.lineValues.flatMap (' ' :: ·)) = visible s.rest := by
  rcases lineValues_cases h with ⟨hrest, hvalues⟩ | ⟨-, -, hvalues⟩ | ⟨-, -, hvalues⟩
  · rw [hvalues, hrest]
    rfl
  · simp [hvalues]
  · rw [hvalues, visible_split]

/-- The line that an instruction is written on has the visible characters of its source, as far as
their number goes. -/
theorem Plain.visible_header {s : Statement} (h : s.Plain) : visible s.header = visible s.text := by
  obtain ⟨sep, hsep, htext, -⟩ := exists_firstWord h.trimmed
  calc visible s.header
      = visible s.name + (visible (s.flags.flatMap (' ' :: ·)) +
          visible (s.lineValues.flatMap (' ' :: ·))) := by
        rw [header, List.flatMap_append, visible_append, visible_append, visible_upper h.isAlphanum]
    _ = visible (firstWord s.text) + visible (afterFirstWord s.text) := by
        rw [visible_lineValues h.keyword, ← visible_spanFlags (afterFirstWord s.text)]
        rfl
    _ = visible (firstWord s.text ++ (sep ++ afterFirstWord s.text)) := by
        simp [visible_eq_zero_iff.mpr hsep]
    _ = visible s.text := by rw [← htext]

/-! ## Statements that go on -/

theorem visible_joinPieces_cons (line : Text) (pieces : List Text) :
    visible (joinPieces (line :: pieces)) = visible (joinPieces pieces) + visible line := by
  by_cases h : pieces = []
  · subst h
    simp [joinPieces, joinWith]
  · simp [joinPieces_cons h]

theorem visible_joinPieces_addPiece (piece : Text) (pieces : List Text) :
    visible (joinPieces (addPiece piece pieces)) = visible (joinPieces pieces) + visible piece := by
  unfold addPiece
  split
  · rename_i h
    simp [h]
  · exact visible_joinPieces_cons piece pieces

namespace Phase

/-- The first statement that is completed has more than `v` visible characters, and the open one has
at least as many up to then. -/
def Grows (v : Nat) : List Statement → Phase → Prop
  | s :: _, _ => v < visible s.text
  | [], between => False
  | [], joining pieces _ _ => v ≤ visible (joinPieces pieces)
  | [], inHeredoc text _ _ _ _ => v < visible text

theorem Open.visible_le {phase : Phase} {first : Nat} (ho : Open n phase pieces first)
    (h : phase.Grows v []) : v ≤ visible (joinPieces pieces) := by
  cases ho with
  | between => exact h.elim
  | joining pieces first last => exact h

/-- A line with something to read makes a statement larger. -/
theorem Open.visible_lt {phase : Phase} {first : Nat} (ho : Open n phase pieces first)
    (h : phase.Grows v []) (hskip : isSkipped (trim line) = false) :
    v < visible (joinPieces (trim line :: pieces)) := by
  have hle := ho.visible_le h
  have hpos := visible_pos (trimmed_trim line).1 (trim_ne_nil_of_not_isSkipped hskip)
  rw [visible_joinPieces_cons]
  omega

theorem Grows.of_move {phase phase' : Phase} {ss new : List Statement} (h : phase.Grows v ss)
    (hmove : Move escape n line phase phase' new) : phase'.Grows v (ss ++ new) := by
  cases ss with
  | cons s ss => exact h
  | nil =>
    cases hmove with
    | skip => exact h
    | inner => exact h
    | @goesOn _ pieces first before ho =>
      have hle := ho.visible_le h
      show v ≤ visible (joinPieces (addPiece (trimEnd before) pieces))
      rw [visible_joinPieces_addPiece]
      omega
    | plain ho hskip => exact ho.visible_lt h hskip
    | opens marker later ho hskip => exact ho.visible_lt h hskip
    | body => exact h
    | next => exact h
    | terminator => exact h

theorem grows_run {phase : Phase} (escape : Char) (n : Nat) (h : phase.Grows v [])
    (ls : List Text) : (phase.run escape n ls).1.Grows v (phase.run escape n ls).2 := by
  simpa using run_invariant (fun _ phase ss => phase.Grows v ss)
    (fun n line phase phase' ss new _ h hmove => h.of_move hmove) (n := n) h

end Phase

end Statement

end Dockerfile
