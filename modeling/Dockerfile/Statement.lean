import Dockerfile.Error
import Dockerfile.Heredoc
import Dockerfile.Text.Line

/-!
# Statements

A statement is the source of one instruction: physical lines that end in the escape character are
joined with their successors, and a heredoc takes the lines up to its terminator verbatim. Blank
lines and comments between statements are dropped, and also inside a statement outside heredocs.

* `Statement`: the joined text, the heredoc lines, and the physical lines covered.
* `Statement.Phase`, `Statement.Phase.step`: the reader, one physical line at a time.
* `Statement.Phase.run_append`: lines can be read in portions.
* `Statement.ofLines`: the statements of a text.
-/

namespace Dockerfile

/-- The source of one instruction. -/
structure Statement where
  /-- The text on one line. -/
  text : Text
  /-- The lines of the heredocs, with their terminators; none if no heredoc was opened. -/
  body : List Text := []
  /-- The first physical line, counted from one. -/
  first : Nat
  /-- The last physical line, included. -/
  last : Nat
deriving DecidableEq, Repr

namespace Statement

/-- A trimmed line without an instruction: a blank line or a comment. -/
def isSkipped : Text → Bool
  | [] => true
  | c :: _ => c == '#'

/-- What a trimmed line adds to a statement, and whether the statement goes on after it. -/
def piece (escape : Char) (line : Text) : Text × Bool :=
  match Text.dropEnd? escape line with
  | some before => (Text.trimEnd before, true)
  | none => (line, false)

/-- The pieces of a statement with one more, latest first; an empty piece adds nothing. -/
def addPiece (piece : Text) (pieces : List Text) : List Text :=
  if piece = [] then pieces else piece :: pieces

/-- The text that the pieces form, latest first, with spaces between them. -/
def joinPieces (pieces : List Text) : Text := Text.joinWith [' '] pieces.reverse

/-- A statement without text is dropped. -/
def keep (s : Statement) : List Statement := if s.text = [] then [] else [s]

/-! ## The reader -/

/-- Where the reader stands between two physical lines. -/
inductive Phase where
  /-- No statement is open. -/
  | between
  /-- The statement goes on after these pieces, latest first. -/
  | joining (pieces : List Text) (first last : Nat)
  /-- The statement waits for the terminator of `marker`, and then for the `later` ones. The lines
  of the body so far stand latest first. -/
  | inHeredoc (text : Text) (first : Nat) (marker : Heredoc) (later : List Heredoc)
      (body : List Text)
deriving DecidableEq, Repr

namespace Phase

/-- The text of a statement is complete at line `n`; its heredocs follow. -/
def close (text : Text) (first n : Nat) : Phase × List Statement :=
  match Heredoc.openedBy text with
  | [] => (between, keep { text, first, last := n })
  | marker :: later => (inHeredoc text first marker later [], [])

/-- A trimmed line with something to read is joined to the open statement. -/
def join (escape : Char) (n : Nat) (pieces : List Text) (first : Nat) (line : Text) :
    Phase × List Statement :=
  let added := addPiece (piece escape line).1 pieces
  if (piece escape line).2 then (joining added first n, []) else close (joinPieces added) first n

/-- One physical line, with the number `n`. -/
def step (escape : Char) (n : Nat) (line : Text) : Phase → Phase × List Statement
  | between =>
    if isSkipped (Text.trim line) then (between, []) else join escape n [] n (Text.trim line)
  | joining pieces first _ =>
    if isSkipped (Text.trim line) then (joining pieces first n, [])
    else join escape n pieces first (Text.trim line)
  | inHeredoc text first marker later body =>
    if marker.closes line then
      match later with
      | [] => (between, [{ text, body := (line :: body).reverse, first, last := n }])
      | next :: later => (inHeredoc text first next later (line :: body), [])
    else (inHeredoc text first marker later (line :: body), [])

/-- The end of the text completes a statement that goes on, but not a heredoc. -/
def finish : Phase → Except Error (List Statement)
  | between => .ok []
  | joining pieces first last => .ok (keep { text := joinPieces pieces, first, last })
  | inHeredoc _ first marker _ _ => .error (.openHeredoc first marker.word)

/-- Physical lines, of which the first has the number `n`: the phase after them, and the statements
that they complete. -/
def run (escape : Char) : Phase → Nat → List Text → Phase × List Statement
  | phase, _, [] => (phase, [])
  | phase, n, line :: rest =>
    let stepped := phase.step escape n line
    let ended := run escape stepped.1 (n + 1) rest
    (ended.1, stepped.2 ++ ended.2)

/-- Lines can be read in portions, the next one from the phase that the one before ended in. -/
theorem run_append (escape : Char) (phase : Phase) (n : Nat) (ls more : List Text) :
    phase.run escape n (ls ++ more) =
      (((phase.run escape n ls).1.run escape (n + ls.length) more).1,
        (phase.run escape n ls).2 ++
          ((phase.run escape n ls).1.run escape (n + ls.length) more).2) := by
  induction ls generalizing phase n with
  | nil => simp [run]
  | cons line rest ih =>
    have hn : n + 1 + rest.length = n + (line :: rest).length := by
      simp only [List.length_cons]
      omega
    simp only [List.cons_append, run, ih, hn, List.append_assoc]

end Phase

/-- The statements of a text with these physical lines. -/
def ofLines (escape : Char) (lines : List Text) : Except Error (List Statement) :=
  let ended := Phase.between.run escape 1 lines
  ended.1.finish.map (ended.2 ++ ·)

/-- The source of the statement: its text, and the heredoc lines below it. -/
def source (s : Statement) : Text :=
  if s.body = [] then s.text else s.text ++ '\n' :: Text.unlines s.body

end Statement

end Dockerfile
