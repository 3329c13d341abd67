import Dockerfile.Json.Value

/-!
# Writing JSON

* `Json.quote`: a string with its quotes. Quotes, backslashes and the characters below U+0020 are
  escaped, and nothing else.
* `Json.render`: the compact text of a value.
-/

namespace Dockerfile.Json

/-- A character as it is written inside a string. -/
def escapeChar (c : Char) : Text :=
  match c with
  | '"' => ['\\', '"']
  | '\\' => ['\\', '\\']
  | '\x08' => ['\\', 'b']
  | '\x0c' => ['\\', 'f']
  | '\n' => ['\\', 'n']
  | '\r' => ['\\', 'r']
  | '\t' => ['\\', 't']
  | c =>
    if c.toNat < 0x20 then
      ['\\', 'u', '0', '0', Nat.digitChar (c.toNat / 16), Nat.digitChar (c.toNat % 16)]
    else [c]

/-- A string with its quotes. -/
def quote (t : Text) : Text := '"' :: t.flatMap escapeChar ++ ['"']

/-- A scalar as it is written; a string without a text is written as null. -/
def Scalar.render : Scalar → Text
  | .null | .string none => "null".toList
  | .bool true => "true".toList
  | .bool false => "false".toList
  | .number literal => literal
  | .string (some t) => quote t

mutual

/-- The compact text of a value. -/
def render : Json → Text
  | .scalar s => s.render
  | .array items => '[' :: renderItems items ++ [']']
  | .object members => '\x7b' :: renderMembers members ++ ['\x7d']

/-- The items of an array, with commas between them. -/
def renderItems : List Json → Text
  | [] => []
  | [j] => j.render
  | j :: k :: rest => j.render ++ ',' :: renderItems (k :: rest)

/-- The members of an object, with commas between them. -/
def renderMembers : List (Option Text × Json) → Text
  | [] => []
  | [(key, j)] => (Scalar.string key).render ++ ':' :: j.render
  | (key, j) :: m :: rest =>
    (Scalar.string key).render ++ ':' :: j.render ++ ',' :: renderMembers (m :: rest)

end

end Dockerfile.Json
