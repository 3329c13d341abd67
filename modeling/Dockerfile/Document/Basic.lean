import Dockerfile.Image
import Dockerfile.Reading

/-!
# Documents

* `Document`: the instructions of a Dockerfile in source order.
* `Document.parse`, `Document.parseWith`: the document that a text holds.
* `Document.baseImage`: the image of the last `FROM`. The first instruction is never considered.
* `Document.retag`: the document whose base image has another tag.
-/

namespace Dockerfile

/-- The instructions of a Dockerfile in source order. -/
structure Document where
  instructions : List Instruction := []
deriving DecidableEq, Repr

namespace Document

/-! ## The list of instructions -/

/-- The number of instructions. -/
def length (d : Document) : Nat := d.instructions.length

/-- The document has no instruction. -/
def isEmpty (d : Document) : Bool := d.instructions.isEmpty

/-- The document with one more instruction at its end. -/
def push (d : Document) (i : Instruction) : Document := { instructions := d.instructions ++ [i] }

/-- The document with one more instruction, before the one at this index. -/
def insertAt (d : Document) (index : Nat) (i : Instruction) : Document :=
  { instructions := d.instructions.insertIdx index i }

/-- The document with another instruction at this index. -/
def replaceAt (d : Document) (index : Nat) (i : Instruction) : Document :=
  { instructions := d.instructions.set index i }

/-- The document without the instruction at this index. -/
def removeAt (d : Document) (index : Nat) : Document :=
  { instructions := d.instructions.eraseIdx index }

/-! ## Reading -/

/-- The document that a reader finds in a text. -/
def parseWith (reader : Reader) (text : Text) : Logged (Except Error Document) :=
  Except.map Document.mk <$> reader text

/-- The document that a text holds. -/
def parse (text : Text) : Logged (Except Error Document) := parseWith (Reader.byLines {}) text

/-! ## The base image -/

/-- The last element with a property, and its index. -/
def findLast? {α : Type} (p : α → Bool) : List α → Option (Nat × α)
  | [] => none
  | a :: rest =>
    match findLast? p rest with
    | some (i, b) => some (i + 1, b)
    | none => if p a then some (0, a) else none

/-- The index of the last `FROM` after the first instruction, and the instruction there. -/
def base (d : Document) : Except Error (Nat × Instruction) :=
  match findLast? (·.hasKeyword (some .fromImage)) d.instructions.tail with
  | some (i, instruction) => .ok (i + 1, instruction)
  | none => .error .noBaseImage

end Document

/-- The path of the image that a `FROM` names. -/
def Instruction.imagePath (i : Instruction) : Except Error Text :=
  match i.values with
  | [] => .error (.noBaseValue i.first)
  | path :: _ => .ok path

/-- The instruction with another image path. -/
def Instruction.withImagePath (i : Instruction) (path : Text) : Instruction :=
  { i with values := path :: i.values.tail }

namespace Document

/-- The image that the last `FROM` names. -/
def baseImage (d : Document) : Except Error Image := do
  let (_, i) ← d.base
  Image.parse (← i.imagePath)

/-- The document whose base image has the given tag. -/
def retag (d : Document) (tag : Text) : Logged (Except Error Document) :=
  let change := do
    let (index, i) ← d.base
    let before ← i.imagePath
    let image ← Image.parse before
    return (index, i, before, ({ image with tag := some tag } : Image).render)
  match change with
  | .error e => pure (.error e)
  | .ok (index, i, before, after) => do
    Logged.emit [.retagged i.first before after]
    return .ok (d.replaceAt index (i.withImagePath after))

end Document

end Dockerfile
