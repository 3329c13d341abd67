import Dockerfile.Text.Basic

/-!
# Words and arguments

The first word of an instruction ends at white space. The arguments after it are separated by white
space that stands outside quotes and is not escaped; they keep their quotes and escapes.

* `Text.firstWord`, `Text.afterFirstWord`: the first word and what follows it.
* `Argument.Mode`: whether a quote is open and whether the next character is escaped.
* `Argument.next?`, `Argument.split`: the first argument, and all arguments.
* `Argument.spanFlags`: the leading flags, and what follows them.
-/

namespace Dockerfile

namespace Text

/-- The characters up to the first white space, after any leading white space. -/
def firstWord (t : Text) : Text := (trim t).takeWhile (!isSpace ·)

/-- What follows the first word, without the white space around it. -/
def afterFirstWord (t : Text) : Text := trimStart ((trim t).dropWhile (!isSpace ·))

end Text

namespace Argument

open Text

/-! ## Quotes and escapes -/

/-- The quotes that may enclose white space. -/
inductive Quote where
  | single
  | double
deriving DecidableEq, Repr

/-- Where a reader stands inside an argument. -/
structure Mode where
  /-- The quote that is open. -/
  quote : Option Quote := none
  /-- A backslash came just before, so the next character loses its meaning. -/
  escaped : Bool := false
deriving DecidableEq, Repr

/-- The mode after one more character. A backslash means itself between single quotes. -/
def Mode.step (m : Mode) (c : Char) : Mode :=
  if m.escaped then { m with escaped := false }
  else match m.quote with
    | some .single => if c = '\'' then {} else m
    | some .double =>
      if c = '\\' then { m with escaped := true } else if c = '"' then {} else m
    | none =>
      if c = '\\' then { escaped := true }
      else if c = '"' then { quote := some .double }
      else if c = '\'' then { quote := some .single }
      else m

/-- The argument ends before this character. -/
def Mode.endsAt (m : Mode) (c : Char) : Bool := m == {} && isSpace c

/-! ## Splitting -/

/-- The characters up to the end of the argument, and what follows it. -/
def scan (m : Mode) : Text → Text × Text
  | [] => ([], [])
  | c :: rest =>
    if m.endsAt c then ([], c :: rest)
    else
      let scanned := scan (m.step c) rest
      (c :: scanned.1, scanned.2)

/-- The first argument and what follows it, unless there is only white space. -/
def next? (t : Text) : Option (Text × Text) :=
  match trimStart t with
  | [] => none
  | c :: rest =>
    let scanned := scan {} (c :: rest)
    some (scanned.1, trimStart scanned.2)

/-- Nothing is lost in a scan. -/
theorem scan_append (m : Mode) (t : Text) : (scan m t).1 ++ (scan m t).2 = t := by
  induction t generalizing m with
  | nil => rfl
  | cons c rest ih =>
    unfold scan
    split
    · rfl
    · rw [List.cons_append, ih]

/-- Taking an argument uses up at least one character. -/
theorem next?_length {t argument after : Text} (h : next? t = some (argument, after)) :
    after.length < t.length := by
  unfold next? at h
  split at h
  · cases h
  · next c rest hc =>
    obtain ⟨-, rfl⟩ := by simpa using h
    have hs : isSpace c = false := isSpace_of_trimStart hc
    have hscan : (scan {} (c :: rest)).2 = (scan (Mode.step {} c) rest).2 := by
      simp [scan, Mode.endsAt, hs]
    have happ := congrArg List.length (scan_append (Mode.step {} c) rest)
    have htrim := length_trimStart_le (scan {} (c :: rest)).2
    have hle := length_trimStart_le t
    rw [hscan] at htrim
    rw [hc] at hle
    rw [hscan]
    simp only [List.length_append, List.length_cons] at happ hle
    omega

/-- The arguments in order. -/
def split (t : Text) : List Text :=
  match _ : next? t with
  | none => []
  | some (argument, after) => argument :: split after
termination_by t.length
decreasing_by exact next?_length ‹_›

/-- The argument is a flag: two dashes and something after them. -/
def isFlag : Text → Bool
  | '-' :: '-' :: _ :: _ => true
  | _ => false

/-- The leading flags, and what follows them. -/
def spanFlags (t : Text) : List Text × Text :=
  match _ : next? t with
  | none => ([], t)
  | some (argument, after) =>
    if isFlag argument then
      let spanned := spanFlags after
      (argument :: spanned.1, spanned.2)
    else ([], t)
termination_by t.length
decreasing_by all_goals exact next?_length ‹_›

end Argument

end Dockerfile
