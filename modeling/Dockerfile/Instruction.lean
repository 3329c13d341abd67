import Dockerfile.Keyword
import Dockerfile.Text.Case

/-!
# Instructions

* `Instruction`: one instruction of a Dockerfile, with the source lines it came from.
* `Instruction.render`: its text on one line, apart from the body of a heredoc that its last value
  carries. Only the name, the flags and the values are written.
-/

namespace Dockerfile

/-- One instruction and where it was read. -/
structure Instruction where
  /-- The keyword as written. -/
  name : Text
  /-- The flags in source order, verbatim. -/
  flags : List Text := []
  /-- The arguments that follow the flags. -/
  values : List Text := []
  /-- The first source line, counted from one. -/
  first : Nat := 0
  /-- The last source line, included. -/
  last : Nat := 0
  /-- The text the instruction was read from, on one line before any heredoc body. -/
  source : Text := []
deriving DecidableEq, Repr

namespace Instruction

/-- The keyword of the instruction, if it is a known one. -/
def keyword? (i : Instruction) : Option Keyword := Keyword.ofName? i.name

/-- The instruction has the given keyword; an unknown one is never given. -/
def hasKeyword (i : Instruction) (k : Option Keyword) : Bool := k.any (·.spelledBy i.name)

/-- A value between double quotes, as it is. -/
def quoted (value : Text) : Text := '"' :: value ++ ['"']

/-- The values as they are written after the flags. The values of an entry point form an array of
quoted strings, inside which nothing is escaped. -/
def arguments (i : Instruction) : Text :=
  if i.values = [] then []
  else if i.keyword? = some .entrypoint then
    " [".toList ++ Text.joinWith ", ".toList (i.values.map quoted) ++ [']']
  else i.values.flatMap (' ' :: ·)

/-- The text of the instruction: its name in capital letters, the flags and the values. -/
def render (i : Instruction) : Text :=
  Text.upper i.name ++ i.flags.flatMap (' ' :: ·) ++ i.arguments

/-- The text of an instruction that may be missing. -/
def renderOption : Option Instruction → Text
  | none => []
  | some i => i.render

end Instruction

end Dockerfile
