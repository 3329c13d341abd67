import Dockerfile.Text.Basic

/-!
# JSON values

* `Json.Scalar`, `Json`: values, with members in source order, repeated ones included.
* Views of a value as a text, a list or a line number: `Json.text?`,
  `Json.texts?`, `Json.optionalText?`, `Json.nat64?`.
-/

namespace Dockerfile

/-- A JSON value without parts. -/
inductive Json.Scalar where
  | null
  | bool (b : Bool)
  /-- A number as it is written. -/
  | number (literal : Text)
  /-- A string; one with an unpaired surrogate stands for no text. -/
  | string (text : Option Text)
deriving DecidableEq, Repr

/-- A JSON value. -/
inductive Json where
  | scalar (s : Json.Scalar)
  | array (items : List Json)
  | object (members : List (Option Text × Json))
deriving Repr

namespace Json

/-- The null value. -/
abbrev null : Json := .scalar .null

/-- A string. -/
def ofText (t : Text) : Json := .scalar (.string (some t))

/-- A number. -/
def ofNat (n : Nat) : Json := .scalar (.number (Text.ofNat n))

/-- A list of strings. -/
def ofTexts (ts : List Text) : Json := .array (ts.map ofText)

/-- A string, or null for a missing text. -/
def ofText? (t : Option Text) : Json := t.elim null ofText

/-- The text of a string. -/
def text? : Json → Option Text
  | .scalar (.string t) => t
  | _ => none

/-- The texts of an array of strings. -/
def texts? : Json → Option (List Text)
  | .array items => items.mapM text?
  | _ => none

/-- A string or null. -/
def optionalText? : Json → Option (Option Text)
  | .scalar .null => some none
  | j => j.text?.map some

/-- A number that fits 64 bits, written with decimal digits only, of which there are at most 20. -/
def nat64? : Json → Option Nat
  | .scalar (.number literal) =>
    if literal.length ≤ 20 ∧ literal.all Char.isDigit then
      let n := Nat.ofDigitChars 10 literal 0
      if n < UInt64.size then some n else none
    else none
  | _ => none

end Json

end Dockerfile
