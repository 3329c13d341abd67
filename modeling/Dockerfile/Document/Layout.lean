import Dockerfile.Document.Basic
import Dockerfile.Text.Utf8

/-!
# Layout

Each instruction is written on the line on which it started, if the text has not gone past that line
yet; blank lines and comments between instructions become empty lines. Continued instructions are
written on one line, and heredoc bodies keep their lines.

Line numbers have 64 bits. An instruction may claim any last line, so the line cursor can run out of
them, and then it matters how the library was built. The functions whose names end in a question
mark count as a build counts. Their namesakes count without a bound: that is what every build writes
as long as the cursor stays below `2 ^ 64`, as it does in what is read from a text of fewer lines.

* `Overflow.word`: what a build makes of a line number.
* `Continuation.advance`: where an instruction leaves the line cursor.
* `Layout.next?`, `Layout.render?`: the line cursor in 64 bits, and the text of instructions from a
  given line on.
* `Document.text?`, `Document.render?`: the text of a document, and the same with its log entry.
* `Layout.next`, `Layout.gaps`, `Layout.render`, `Document.text`, `Document.render`: the same without
  a bound.
-/

namespace Dockerfile

/-- What a build does with a line number that does not fit in 64 bits. -/
inductive Overflow where
  /-- It checks for such numbers and stops. -/
  | stops
  /-- It drops the high bits. -/
  | wraps
deriving DecidableEq, Repr

/-- What becomes of a line number. There is none once the build has stopped. -/
def Overflow.word (o : Overflow) (n : Nat) : Option Nat :=
  if n < UInt64.size then some n
  else match o with
    | .stops => none
    | .wraps => some (n % UInt64.size)

/-- Where the line cursor belongs after an instruction has been written, where `line` is the line on
which its text ends and `written` is the number of line feeds in that text. -/
def Continuation.advance (c : Continuation) (i : Instruction) (line written : Nat) : Nat :=
  match c with
  | .skipSpan =>
    let span := i.last - i.first - written
    if span > 1 then line + span + 1 else line
  | .collapseToEnd => max line i.last

namespace Layout

/-- An instruction below a number of line feeds. -/
def place (gap : Nat) (i : Instruction) : Text := List.replicate gap '\n' ++ i.render

/-! ## In 64 bits -/

/-- The line cursor after an instruction that is reached with the cursor at `line`. It is moved over
the lines of the text first, and then to where the next instruction may stand. -/
def next? (o : Overflow) (c : Continuation) (line : Nat) (i : Instruction) : Option Nat := do
  let written := Text.lineFeeds i.render
  let line ← o.word (max line i.first + written)
  -- If a part of the sum does not fit, the sum does not either.
  o.word (c.advance i line written)

/-- The text of the instructions, where the first is reached with the line cursor at `line`. -/
def render? (o : Overflow) (c : Continuation) : Nat → List Instruction → Option Text
  | _, [] => some []
  | line, i :: rest => do
    let after ← next? o c line i
    (place (i.first - line) i ++ ·) <$> render? o c after rest

@[simp] theorem render?_nil (o : Overflow) (c : Continuation) (line : Nat) :
    render? o c line [] = some [] := rfl

theorem render?_cons (o : Overflow) (c : Continuation) (line : Nat) (i : Instruction)
    (rest : List Instruction) :
    render? o c line (i :: rest) =
      ((next? o c line i).bind fun after => render? o c after rest).map
        (place (i.first - line) i ++ ·) :=
  Option.map_bind.symm

/-! ## Without a bound -/

/-- The line cursor after an instruction that is reached with the cursor at `line`, as `next?` gives
it below `2 ^ 64`. -/
def next (c : Continuation) (line : Nat) (i : Instruction) : Nat :=
  let written := Text.lineFeeds i.render
  c.advance i (max line i.first + written) written

/-- The numbers of line feeds that are written before the instructions, where the first of them is
reached with the line cursor at `line`. -/
def gaps (c : Continuation) : Nat → List Instruction → List Nat
  | _, [] => []
  | line, i :: rest => (i.first - line) :: gaps c (next c line i) rest

/-- The text of the instructions, as `render?` gives it while the cursor stays below `2 ^ 64`. -/
def render (c : Continuation) (line : Nat) (is : List Instruction) : Text :=
  (List.zipWith place (gaps c line is) is).flatten

@[simp] theorem render_nil (c : Continuation) (line : Nat) : render c line [] = [] := rfl

@[simp] theorem render_cons (c : Continuation) (line : Nat) (i : Instruction)
    (rest : List Instruction) :
    render c line (i :: rest) = place (i.first - line) i ++ render c (next c line i) rest := rfl

end Layout

namespace Document

/-- The text of the document that a build writes, without a final line feed. There is none if the
line cursor stops the build. -/
def text? (o : Overflow) (d : Document) (options : RenderOptions) : Option Text :=
  Layout.render? o options.continuation 1 d.instructions

/-- The text of a document, without a final line feed, as `text?` gives it while the line cursor
stays below `2 ^ 64`. -/
def text (d : Document) (options : RenderOptions) : Text :=
  Layout.render options.continuation 1 d.instructions

/-- A text of the document, with the log entry for it. -/
def logged (d : Document) (text : Text) : Logged Text := do
  Logged.emit [.rendered d.length (Text.byteSize text)]
  return text

/-- The text of the document that a build writes, with its log entry. -/
def render? (o : Overflow) (d : Document) (options : RenderOptions) : Option (Logged Text) :=
  (d.text? o options).map d.logged

/-- The text of a document, with its log entry, as `render?` gives it while the line cursor stays
below `2 ^ 64`. -/
def render (d : Document) (options : RenderOptions) : Logged Text := d.logged (d.text options)

end Document

end Dockerfile
