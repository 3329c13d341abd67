import Dockerfile.Argument
import Dockerfile.Keyword

/-!
# Heredocs

A `RUN`, `COPY` or `ADD` instruction opens a heredoc with `<<WORD`, `<<-WORD` or a quoted word. The
lines after the instruction, up to one that consists of the word, are its body.

* `Heredoc.scan`: the heredocs that a text opens, in order.
* `Heredoc.openedBy`: those that an instruction opens.
* `Heredoc.closes`: the lines that end the body.
-/

namespace Dockerfile

/-- A heredoc that has been opened. -/
structure Heredoc where
  /-- The word on the line that ends the body. -/
  word : Text
  /-- The line may be indented with tabs. -/
  indented : Bool := false
deriving DecidableEq, Repr

namespace Heredoc

/-- The characters of a terminator word. -/
def isWordChar (c : Char) : Bool := c.isAlphanum || c == '_'

/-- The word at the start of a text, which may stand between quotes. -/
def word? (t : Text) : Option Text :=
  match t with
  | [] => none
  | c :: rest =>
    if c = '"' ∨ c = '\'' then
      let word := rest.takeWhile isWordChar
      if word ≠ [] ∧ (rest.dropWhile isWordChar).head? = some c then some word else none
    else
      let word := t.takeWhile isWordChar
      if word ≠ [] then some word else none

/-- The heredoc that is opened by two angle brackets and this text. -/
def ofText? : Text → Option Heredoc
  | '-' :: rest => (word? rest).map ({ word := ·, indented := true })
  | t => (word? t).map ({ word := · })

/-- The heredocs that a text opens, in order. -/
def scan : Text → List Heredoc
  | '<' :: '<' :: rest => (ofText? rest).toList ++ scan rest
  | _ :: rest => scan rest
  | [] => []

/-- The instructions that may open a heredoc. -/
def canOpen (k : Option Keyword) : Bool :=
  k = some .run ∨ k = some .copy ∨ k = some .add

/-- The heredocs that an instruction opens, in order. -/
def openedBy (text : Text) : List Heredoc :=
  if canOpen (Keyword.ofName? (Text.firstWord text)) then scan text else []

/-- The line ends the body of the heredoc. -/
def closes (h : Heredoc) (line : Text) : Bool :=
  (if h.indented then line.dropWhile (· = '\t') else line) = h.word

end Heredoc

end Dockerfile
