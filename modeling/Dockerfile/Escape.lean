import Dockerfile.Error

/-!
# Parser directives and the escape character

Comment lines of the form `# key=value` at the start of a text are parser directives. Of these only
`escape` has an effect: it selects the character that continues a line.

* `Directive.ofLine?`: the directive that a line consists of.
* `Escape.effective`: the escape character in force, after the leading directives.
-/

namespace Dockerfile

/-- A comment that speaks to the parser. -/
structure Directive where
  key : Text
  value : Text
deriving DecidableEq, Repr

/-- The directive that a line consists of, if it is a comment with a key of ASCII letters and
digits and an equals sign. -/
def Directive.ofLine? (line : Text) : Option Directive :=
  match Text.trim line with
  | '#' :: body =>
    let key := Text.trim (body.takeWhile (· ≠ '='))
    match body.dropWhile (· ≠ '=') with
    | [] => none
    | _ :: value => if Text.isAlphanum key then some ⟨key, Text.trim value⟩ else none
  | _ => none

/-- The directive selects the escape character. -/
def Directive.isEscape (d : Directive) : Bool := Text.sameLetters d.key "escape".toList

namespace Escape

/-- The characters that may continue a line: a backslash and a backquote. -/
def isValid (c : Char) : Bool := c == '\\' || c == '\x60'

/-- The character that an escape directive selects. -/
def ofValue? : Text → Option Char
  | [c] => if isValid c then some c else none
  | _ => none

/-- The escape character after the leading directives among the lines, of which the first has the
number `n`. The last escape directive decides. -/
def effectiveFrom (escape : Char) (n : Nat) : List Text → Except Error Char
  | [] => .ok escape
  | line :: rest =>
    match Directive.ofLine? line with
    | none => .ok escape
    | some d =>
      if d.isEscape then
        match ofValue? d.value with
        | none => .error (.badEscape n d.value)
        | some c => effectiveFrom c (n + 1) rest
      else effectiveFrom escape (n + 1) rest

/-- The escape character in force in a text with these lines. -/
def effective (escape : Char) (lines : List Text) : Except Error Char :=
  effectiveFrom escape 1 lines

end Escape

end Dockerfile
