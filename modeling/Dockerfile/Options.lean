import Dockerfile.Escape

/-!
# Options

* `ReadOptions`: the escape character that holds unless a directive selects another.
* `RenderOptions`: what becomes of the lines that a joined instruction leaves empty.
* `version`: the version of the library.
-/

namespace Dockerfile

/-- The version of the library. -/
def version : String := "0.1.0"

/-- The escape character of a text without directives. -/
def defaultEscape : Char := '\\'

/-- How to read a text. -/
structure ReadOptions where
  /-- The escape character that holds unless a directive selects another. -/
  escape : Char := defaultEscape
deriving DecidableEq, Repr

/-- Where the line cursor goes after an instruction that covered several source lines. -/
inductive Continuation where
  /-- Past the source lines that were not written and one line more, if there is more than one of
  them; otherwise nowhere. -/
  | skipSpan
  /-- To the last source line of the instruction. -/
  | collapseToEnd
deriving DecidableEq, Repr

/-- How to write a document. -/
structure RenderOptions where
  /-- Where the line cursor goes after an instruction that covered several source lines. -/
  continuation : Continuation := .skipSpan
deriving DecidableEq, Repr

end Dockerfile
