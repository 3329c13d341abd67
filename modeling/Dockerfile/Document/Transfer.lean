import Dockerfile.Document.Layout
import Dockerfile.Transfer

/-!
# Documents in sources and sinks

* `Source.readText`: the text that a source delivers in UTF-8.
* `Document.ofSource`: the document in a source.
* `Document.write?`: writes the text of a document to a sink, as a build does.
* `Document.write`: the same with a line cursor without a bound.
-/

namespace Dockerfile

/-- The text that a source delivers in UTF-8. -/
def Source.readText (source : Source) : Except Error Text := do
  match Text.ofBytes? (← source.readAll) with
  | some text => .ok text
  | none => .error .notUtf8

namespace Document

/-- The document in a source. -/
def ofSource (source : Source) : Logged (Except Error Document) :=
  match source.readText with
  | .error e => pure (.error e)
  | .ok text => parse text

variable {σ : Type}

/-- Writes the text of the document that a build has to a sink, in UTF-8. A build that stops does so
before the first byte is offered. -/
def write? (o : Overflow) (d : Document) (options : RenderOptions) (sink : Sink σ) (state : σ) :
    Option (Logged (σ × Except Error Unit)) :=
  (d.render? o options).map ((sink.writeAll state <| Text.toBytes ·) <$> ·)

/-- Writes the text of a document to a sink, in UTF-8, as `write?` does while the line cursor stays
below `2 ^ 64`. -/
def write (d : Document) (options : RenderOptions) (sink : Sink σ) (state : σ) :
    Logged (σ × Except Error Unit) :=
  (sink.writeAll state <| Text.toBytes ·) <$> d.render options

end Document

end Dockerfile
