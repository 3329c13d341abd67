import Dockerfile.Text.Basic

/-!
# The log

Operations that report what they do return their result together with the events they emit.

* `Event`: what is reported, with its level, wording and fields.
* `Logged α`: a value and the events emitted on the way to it, in order.
-/

namespace Dockerfile

/-- How important an event is. -/
inductive Level where
  | warn
  | debug
  | trace
deriving DecidableEq, Repr

/-- Something worth reporting. -/
inductive Event where
  /-- An instruction with an unknown keyword is kept as it is. -/
  | unknownInstruction (line : Nat) (keyword : Text)
  /-- An entry point in brackets is no JSON array of strings, so it is a shell command. The field
  `error`, in which the JSON library words what is wrong with the array, is left out here. -/
  | shellEntrypoint (line : Nat)
  /-- A whole text was read. -/
  | parsed (instructions lines : Nat) (escape : Char)
  /-- The value of a base image gives way to one with another tag. -/
  | retagged (line : Nat) (before after : Text)
  /-- A document was written out. -/
  | rendered (instructions bytes : Nat)
deriving DecidableEq, Repr

namespace Event

/-- The value of a field of an event. -/
inductive Field where
  | number (n : Nat)
  | text (t : Text)
deriving DecidableEq, Repr

/-- The level of an event. -/
def level : Event → Level
  | unknownInstruction .. => .warn
  | shellEntrypoint .. | parsed .. | retagged .. => .debug
  | rendered .. => .trace

/-- The wording of an event. -/
def message : Event → String
  | unknownInstruction .. => "Unknown Dockerfile instruction, keeping as-is"
  | shellEntrypoint .. => "ENTRYPOINT is not a JSON array, using shell form"
  | parsed .. => "Parsed Dockerfile"
  | retagged .. => "Rewriting base image tag"
  | rendered .. => "Rendered Dockerfile"

/-- The named fields of an event. -/
def fields : Event → List (String × Field)
  | unknownInstruction line keyword => [("line", .number line), ("instruction", .text keyword)]
  | shellEntrypoint line => [("line", .number line)]
  | parsed instructions lines escape =>
    [("instructions", .number instructions), ("lines", .number lines), ("escape", .text [escape])]
  | retagged line before after =>
    [("line", .number line), ("from", .text before), ("to", .text after)]
  | rendered instructions bytes =>
    [("commands", .number instructions), ("bytes", .number bytes)]

end Event

/-- A value and the events emitted on the way to it. -/
structure Logged (α : Type) where
  value : α
  events : List Event := []
deriving Repr

namespace Logged

instance : Monad Logged where
  pure a := { value := a }
  map f x := { value := f x.value, events := x.events }
  bind x f :=
    let y := f x.value
    { value := y.value, events := x.events ++ y.events }

/-- Emits the given events. -/
def emit (events : List Event) : Logged Unit := { value := (), events }

variable {α β : Type}

@[simp] theorem value_pure (a : α) : (pure a : Logged α).value = a := rfl

@[simp] theorem events_pure (a : α) : (pure a : Logged α).events = [] := rfl

@[simp] theorem value_map (f : α → β) (x : Logged α) : (f <$> x).value = f x.value := rfl

@[simp] theorem events_map (f : α → β) (x : Logged α) : (f <$> x).events = x.events := rfl

@[simp] theorem value_bind (x : Logged α) (f : α → Logged β) :
    (x >>= f).value = (f x.value).value := rfl

@[simp] theorem events_bind (x : Logged α) (f : α → Logged β) :
    (x >>= f).events = x.events ++ (f x.value).events := rfl

@[simp] theorem events_emit (events : List Event) : (emit events).events = events := rfl

end Logged

end Dockerfile
