import Dockerfile.Text.Basic

/-!
# Physical lines

A line ends at a line feed, and a carriage return just before that line feed belongs to the line
ending. A text that ends with a line feed has no further line after it. A carriage return
anywhere else is an ordinary character, also at the end of a text without a final line feed.

* `Text.lines`: the physical lines of a text.
* `Text.unlines`: lines joined by line feeds.
-/

namespace Dockerfile.Text

/-- The physical lines of a text, without their line endings. -/
def lines : Text → List Text
  | [] => []
  | '\n' :: rest => [] :: lines rest
  | '\r' :: '\n' :: rest => [] :: lines rest
  | c :: rest =>
    match lines rest with
    | [] => [[c]]
    | line :: more => (c :: line) :: more

/-- Lines joined by line feeds. -/
def unlines (ls : List Text) : Text := joinWith ['\n'] ls

/-- The number of line feeds in a text. -/
def lineFeeds (t : Text) : Nat := t.count '\n'

end Dockerfile.Text
