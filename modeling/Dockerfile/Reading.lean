import Dockerfile.Instruction
import Dockerfile.Json.Reader
import Dockerfile.Log
import Dockerfile.Options
import Dockerfile.Statement

/-!
# Reading instructions

* `Statement.instruction`: the instruction that a statement holds.
* `Statement.notices`: what is reported about it.
* `Reader`: any way of turning a text into instructions.
* `Reader.byLines`: the reader that takes a Dockerfile line by line.
-/

namespace Dockerfile

namespace Statement

/-! ## One statement -/

/-- The first word of the statement. -/
def name (s : Statement) : Text := Text.firstWord s.text

/-- The keyword that the first word spells. -/
def keyword? (s : Statement) : Option Keyword := Keyword.ofName? s.name

/-- The flags after the first word. -/
def flags (s : Statement) : List Text := (Argument.spanFlags (Text.afterFirstWord s.text)).1

/-- What follows the flags. -/
def rest (s : Statement) : Text := (Argument.spanFlags (Text.afterFirstWord s.text)).2

/-- The instructions that take what follows the flags as one value. -/
def takesText : Option Keyword → Bool
  | some .entrypoint | some .run | some .cmd | some .shell | some .healthcheck | some .onbuild
  | some .maintainer | some .workdir | some .user | some .stopsignal => true
  | _ => false

/-- The statement is an entry point in brackets. -/
def isBracketed (s : Statement) : Bool :=
  s.keyword? = some .entrypoint ∧ s.rest.head? = some '['

/-- The values on the line of the instruction. An entry point in brackets has the texts of its JSON
array as values, if it is an array of strings. -/
def lineValues (s : Statement) : List Text :=
  if s.rest = [] then []
  else if s.isBracketed then (Json.parseTexts s.rest).getD [s.rest]
  else if takesText s.keyword? then [s.rest]
  else Argument.split s.rest

/-- The values with a heredoc body below the last one. -/
def appendBody (body : Text) : List Text → List Text
  | [] => [body]
  | [value] => [value ++ '\n' :: body]
  | value :: next :: values => value :: appendBody body (next :: values)

/-- The values with the heredoc body, if there is one. -/
def values (s : Statement) : List Text :=
  if s.body = [] then s.lineValues else appendBody (Text.unlines s.body) s.lineValues

/-- The instruction that the statement holds. Its first word must consist of ASCII letters and
digits. -/
def instruction (s : Statement) : Except Error Instruction :=
  if Text.isAlphanum s.name then
    .ok
      { name := s.name, flags := s.flags, values := s.values, first := s.first, last := s.last,
        source := s.source }
  else .error (.badKeyword s.first s.name)

/-- What is reported about a statement: an unknown keyword, and an entry point in brackets that is
no array of strings. -/
def notices (s : Statement) : List Event :=
  (if s.keyword? = none then [.unknownInstruction s.first s.name] else []) ++
    (if s.isBracketed ∧ Json.parseTexts s.rest = none then [.shellEntrypoint s.first] else [])

/-! ## All statements -/

/-- The instructions of the statements in order, up to the first faulty one. -/
def instructions : List Statement → Logged (Except Error (List Instruction))
  | [] => pure (.ok [])
  | s :: rest =>
    match s.instruction with
    | .error e => pure (.error e)
    | .ok i => do
      Logged.emit s.notices
      Except.map (i :: ·) <$> instructions rest

end Statement

/-- A way of turning a text into instructions. -/
abbrev Reader := Text → Logged (Except Error (List Instruction))

/-- Reads a Dockerfile line by line. First the directives are read, then the lines are joined to
statements, then the statements are taken apart. -/
def Reader.byLines (options : ReadOptions) : Reader := fun text =>
  let lines := Text.lines text
  let joined := do
    let escape ← Escape.effective options.escape lines
    return (escape, ← Statement.ofLines escape lines)
  match joined with
  | .error e => pure (.error e)
  | .ok (escape, statements) => do
    match ← Statement.instructions statements with
    | .error e => return .error e
    | .ok [] => return .error (.noInstructions lines.length)
    | .ok instructions =>
      Logged.emit [.parsed instructions.length lines.length escape]
      return .ok instructions

end Dockerfile
