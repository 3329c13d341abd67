import Dockerfile.Error

/-!
# Sources and sinks of bytes

* `Source`: the answers that a byte source gives to one read after another.
* `Source.readAll`: the bytes up to the end of the source.
* `Sink`: what a byte sink does with the bytes offered to it.
* `Sink.writeAll`: offers bytes until all are taken.
* `Source.ofBytes`, `Sink.bounded`: sources and sinks with short transfers that fail at some byte.
-/

namespace Dockerfile

/-! ## Sources -/

/-- The answer of a source to a read. -/
inductive Source.Delivery where
  /-- Some bytes; none at all mark the end. -/
  | bytes (bs : List UInt8)
  /-- A failure for good. A read that is only interrupted is made again and has no answer. -/
  | failure (detail : Text)
deriving DecidableEq, Repr

/-- The answers of a source to one read after another. -/
abbrev Source := List Source.Delivery

namespace Source

/-- The bytes up to the end of the source, unless a read fails before. -/
def readAll : Source → Except Error (List UInt8)
  | [] | .bytes [] :: _ => .ok []
  | .failure detail :: _ => .error (.transfer detail)
  | .bytes (b :: bs) :: rest => (readAll rest).map ((b :: bs) ++ ·)

/-- A source that delivers at most `size` bytes at a time. -/
def chunked (size : Nat) : List UInt8 → Source
  | [] => []
  | b :: bs => .bytes ((b :: bs).take size) :: chunked size (bs.drop (size - 1))
termination_by bytes => bytes.length

/-- A source that delivers the bytes, at most `chunk` of them at a time. With `failAt`, a read after
that number of bytes fails for the reason given, if the source has so many bytes. -/
def ofBytes (bytes : List UInt8) (chunk : Option Nat) (failAt : Option (Nat × Text)) : Source :=
  let deliver (bs : List UInt8) := chunked (chunk.getD bs.length) bs
  match failAt with
  | none => deliver bytes
  | some (n, detail) =>
    if n ≤ bytes.length then deliver (bytes.take n) ++ [.failure detail] else deliver bytes

end Source

/-! ## Sinks -/

/-- The answer of a sink to a write. -/
inductive Sink.Answer where
  /-- The number of bytes taken, from the front of those offered. -/
  | took (count : Nat)
  /-- A failure for good. A write that is only interrupted is made again and has no answer. -/
  | failure (detail : Text)
deriving DecidableEq, Repr

/-- A sink whose state is of type `σ`. -/
structure Sink (σ : Type) where
  /-- Offers bytes to the sink. -/
  write : σ → List UInt8 → σ × Sink.Answer

namespace Sink

/-- Offers bytes until all are taken. A sink that takes none has failed. -/
def writeAll {σ : Type} (sink : Sink σ) (state : σ) : List UInt8 → σ × Except Error Unit
  | [] => (state, .ok ())
  | b :: bs =>
    match sink.write state (b :: bs) with
    | (state, .failure detail) => (state, .error (.transfer detail))
    | (state, .took 0) => (state, .error .nothingTaken)
    | (state, .took (n + 1)) => sink.writeAll state (bs.drop n)
termination_by bytes => bytes.length

/-- What a sink with bounds has taken, and what it can still take. -/
structure Store where
  /-- The bytes taken, latest first. -/
  taken : List UInt8 := []
  /-- The number of bytes that can still be taken, if there is a bound. -/
  room : Option Nat := none
deriving DecidableEq, Repr

/-- The bytes taken, in order. -/
def Store.bytes (s : Store) : List UInt8 := s.taken.reverse

/-- The first bytes, up to a bound if there is one. -/
def takeUpTo (bound : Option Nat) (bytes : List UInt8) : List UInt8 :=
  match bound with
  | none => bytes
  | some n => bytes.take n

/-- A sink that keeps what it takes, at most `chunk` bytes per write. Once there is no room left it
gives the answer `full`. -/
def bounded (chunk : Option Nat) (full : Answer) : Sink Store where
  write store bytes :=
    if store.room = some 0 then (store, full)
    else
      let part := takeUpTo store.room (takeUpTo chunk bytes)
      let store :=
        { taken := part.reverse ++ store.taken, room := store.room.map (· - part.length) }
      (store, .took part.length)

end Sink

end Dockerfile
