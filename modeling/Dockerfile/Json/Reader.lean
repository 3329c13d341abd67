import Dockerfile.Json.Token

/-!
# Reading JSON

The reader keeps the containers that are still open in a list, innermost first, so that values may
nest to any depth.

* `Json.Reader.step`: the effect of one token.
* `Json.parse`: the value that a text consists of.
-/

namespace Dockerfile.Json

namespace Reader

/-- A container that is still open, with what it holds so far in reverse order. -/
inductive Frame where
  | array (items : List Json)
  /-- An object in which a value for `key` must come next. -/
  | object (members : List (Option Text × Json)) (key : Option Text)
deriving Repr

/-- What may come next. -/
inductive Expect where
  /-- A value. -/
  | value
  /-- The first item of an array, or its end. -/
  | itemOrEnd
  /-- The first key of an object, or its end. -/
  | keyOrEnd
  /-- A further key of an object with these members. -/
  | key (members : List (Option Text × Json))
  /-- The colon after a key. -/
  | colon (members : List (Option Text × Json)) (key : Option Text)
  /-- What follows this complete value. -/
  | after (value : Json)
deriving Repr

/-- What may come next, and the containers that are still open. -/
structure State where
  expect : Expect
  frames : List Frame
deriving Repr

/-- A value starts. -/
def startValue (frames : List Frame) : Token → Option State
  | .scalar s => some ⟨.after (.scalar s), frames⟩
  | .openArray => some ⟨.itemOrEnd, frames⟩
  | .openObject => some ⟨.keyOrEnd, frames⟩
  | _ => none

/-- A key starts. -/
def startKey (members : List (Option Text × Json)) (frames : List Frame) : Token → Option State
  | .scalar (.string key) => some ⟨.colon members key, frames⟩
  | _ => none

/-- The effect of one token. -/
def step : State → Token → Option State
  | ⟨.value, frames⟩, token => startValue frames token
  | ⟨.itemOrEnd, frames⟩, .closeArray => some ⟨.after (.array []), frames⟩
  | ⟨.itemOrEnd, frames⟩, token => startValue (.array [] :: frames) token
  | ⟨.keyOrEnd, frames⟩, .closeObject => some ⟨.after (.object []), frames⟩
  | ⟨.keyOrEnd, frames⟩, token => startKey [] frames token
  | ⟨.key members, frames⟩, token => startKey members frames token
  | ⟨.colon members key, frames⟩, .colon => some ⟨.value, .object members key :: frames⟩
  | ⟨.after value, .array items :: frames⟩, .comma =>
    some ⟨.value, .array (value :: items) :: frames⟩
  | ⟨.after value, .array items :: frames⟩, .closeArray =>
    some ⟨.after (.array (value :: items).reverse), frames⟩
  | ⟨.after value, .object members key :: frames⟩, .comma =>
    some ⟨.key ((key, value) :: members), frames⟩
  | ⟨.after value, .object members key :: frames⟩, .closeObject =>
    some ⟨.after (.object ((key, value) :: members).reverse), frames⟩
  | _, _ => none

/-- The value that has been read, if nothing is left open. -/
def State.value? : State → Option Json
  | ⟨.after value, []⟩ => some value
  | _ => none

/-- The value that the tokens form. -/
def ofTokens (tokens : List Token) : Option Json :=
  (tokens.foldlM step ⟨.value, []⟩).bind State.value?

end Reader

/-- The value that a text consists of, apart from blanks. -/
def parse (text : Text) : Option Json := (Token.lex text).bind Reader.ofTokens

/-- The texts of an array of strings. -/
def parseTexts (text : Text) : Option (List Text) := (parse text).bind texts?

end Dockerfile.Json
