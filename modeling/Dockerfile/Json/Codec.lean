import Dockerfile.Image
import Dockerfile.Instruction
import Dockerfile.Json.Reader
import Dockerfile.Json.Record
import Dockerfile.Json.Writer
import Dockerfile.Options

/-!
# The JSON forms of the records

For each record, `toJson` gives its JSON form, with all fields in order, and `ofJson?` accepts any
JSON form of it. Of an image only the repository is required; of options nothing is.

* `Image.toJson`, `Image.ofJson?`
* `Instruction.toJson`, `Instruction.ofJson?`
* `ReadOptions.toJson`, `ReadOptions.ofJson?`
* `RenderOptions.toJson`, `RenderOptions.ofJson?`
-/

namespace Dockerfile

/-- An object whose members have the given names and values. -/
def Json.record (names : List Text) (values : List Json) : Json :=
  .object ((names.map some).zip values)

/-- The value of a field that may be missing or null. -/
def Json.optionalField? : Option Json → Option (Option Text)
  | none => some none
  | some j => j.optionalText?

/-! ## Images -/

namespace Image

/-- The names of the fields of an image. -/
def fieldNames : List Text :=
  ["registry".toList, "port".toList, "namespace".toList, "repository".toList, "tag".toList,
   "id".toList]

/-- The JSON form of an image. -/
def toJson (image : Image) : Json :=
  Json.record fieldNames
    [Json.ofText? image.registry, Json.ofText? image.port, Json.ofText? image.owner,
     Json.ofText image.repository, Json.ofText? image.tag, Json.ofText? image.id]

/-- The image that a JSON value stands for. -/
def ofJson? (j : Json) : Option Image :=
  match j.fields? fieldNames false with
  | some [registry, port, owner, some repository, tag, id] => do
    return {
      registry := ← Json.optionalField? registry
      port := ← Json.optionalField? port
      owner := ← Json.optionalField? owner
      repository := ← repository.text?
      tag := ← Json.optionalField? tag
      id := ← Json.optionalField? id }
  | _ => none

end Image

/-! ## Instructions -/

namespace Instruction

/-- The names of the fields of an instruction. -/
def fieldNames : List Text :=
  ["name".toList, "flags".toList, "values".toList, "start_line".toList, "end_line".toList,
   "original".toList]

/-- The JSON form of an instruction. -/
def toJson (i : Instruction) : Json :=
  Json.record fieldNames
    [Json.ofText i.name, Json.ofTexts i.flags, Json.ofTexts i.values, Json.ofNat i.first,
     Json.ofNat i.last, Json.ofText i.source]

/-- The instruction that a JSON value stands for. -/
def ofJson? (j : Json) : Option Instruction :=
  match j.fields? fieldNames false with
  | some [some name, some flags, some values, some first, some last, some source] => do
    return {
      name := ← name.text?
      flags := ← flags.texts?
      values := ← values.texts?
      first := ← first.nat64?
      last := ← last.nat64?
      source := ← source.text? }
  | _ => none

end Instruction

/-! ## Options -/

namespace ReadOptions

/-- The names of the fields of the options for reading. -/
def fieldNames : List Text := ["escape".toList]

/-- The JSON form of the options for reading. -/
def toJson (options : ReadOptions) : Json :=
  Json.record fieldNames [Json.ofText [options.escape]]

/-- The options for reading that a JSON value stands for. -/
def ofJson? (j : Json) : Option ReadOptions :=
  match j.fields? fieldNames true with
  | some [none] => some {}
  | some [some escape] =>
    match escape.text? with
    | some [c] => some { escape := c }
    | _ => none
  | _ => none

end ReadOptions

namespace Continuation

/-- All values. -/
def all : List Continuation := [skipSpan, collapseToEnd]

/-- The name of the value. -/
def name : Continuation → Text
  | skipSpan => "skip_span".toList
  | collapseToEnd => "collapse_to_end".toList

/-- The value with this name. -/
def ofName? (name : Text) : Option Continuation := all.find? (·.name = name)

/-- The value that a JSON value names, as a string or as the key of an object with a null. -/
def ofJson? : Json → Option Continuation
  | .scalar (.string (some name)) => ofName? name
  | .object [(some name, .scalar .null)] => ofName? name
  | _ => none

end Continuation

namespace RenderOptions

/-- The names of the fields of the options for writing. -/
def fieldNames : List Text := ["continuation".toList]

/-- The JSON form of the options for writing. -/
def toJson (options : RenderOptions) : Json :=
  Json.record fieldNames [Json.ofText options.continuation.name]

/-- The options for writing that a JSON value stands for. -/
def ofJson? (j : Json) : Option RenderOptions :=
  match j.fields? fieldNames true with
  | some [none] => some {}
  | some [some continuation] => (Continuation.ofJson? continuation).map ({ continuation := · })
  | _ => none

end RenderOptions

end Dockerfile
