import Dockerfile.Error

/-!
# Image references

An image path has the form `[host:port/][owner/]repository[:tag]` or `[host:port/][owner/]id`. Of
the readings that a path admits, one with a host comes before one without, then one with an owner
before one without, then a named repository before an id. A host without a port is read as an
owner, and the repository keeps any further slashes. No defaults are filled in.

* `Image`: the parts of a reference.
* `Image.parse`: the best reading of a path.
* `Image.render`: the path that a reference stands for.
-/

namespace Dockerfile

/-- The parts of an image reference; a part that was not written is missing. -/
structure Image where
  /-- The registry host, which a path gives only together with a port. -/
  registry : Option Text := none
  /-- The port of the registry. -/
  port : Option Text := none
  /-- The first component of the path inside the registry. -/
  owner : Option Text := none
  /-- The rest of the path, which may hold further slashes. -/
  repository : Text := []
  /-- What follows the first colon of the repository. -/
  tag : Option Text := none
  /-- An identifier that stands for all other parts. -/
  id : Option Text := none
deriving DecidableEq, Repr

namespace Image

/-! ## Reading -/

/-- The end of a path, after the host and the owner. -/
inductive Target where
  | repository (path : Text) (tag : Option Text)
  | id (id : Text)
deriving DecidableEq, Repr

/-- A target is a repository, with a tag after its first colon, or else an id. -/
def Target.parse? (text : Text) : Option Target :=
  let repository := text.takeWhile (· ≠ ':')
  match text.dropWhile (· ≠ ':') with
  | [] => if text = [] then none else some (.repository text none)
  | _ :: tag =>
    if repository ≠ [] ∧ tag ≠ [] ∧ '/' ∉ tag then some (.repository repository (some tag))
    else if '/' ∈ text then none
    else some (.id text)

/-- Splits off a leading `host:port/`, with a port of decimal digits. -/
def takeHost? (path : Text) : Option ((Text × Text) × Text) :=
  let host := path.takeWhile (fun c => c ≠ ':' ∧ c ≠ '/')
  match path.dropWhile (fun c => c ≠ ':' ∧ c ≠ '/') with
  | ':' :: after =>
    let port := after.takeWhile Char.isDigit
    match after.dropWhile Char.isDigit with
    | '/' :: rest => if host = [] ∨ port = [] then none else some ((host, port), rest)
    | _ => none
  | _ => none

/-- Splits off a leading `owner/`. -/
def takeOwner? (path : Text) : Option (Text × Text) :=
  let owner := path.takeWhile (· ≠ '/')
  match path.dropWhile (· ≠ '/') with
  | [] => none
  | _ :: rest => if owner = [] then none else some (owner, rest)

/-- The reference with the given parts. -/
def ofParts (host : Option (Text × Text)) (owner : Option Text) : Target → Image
  | .repository repository tag =>
    { registry := host.map (·.1), port := host.map (·.2), owner, repository, tag }
  | .id id => { registry := host.map (·.1), port := host.map (·.2), owner, id := some id }

/-- The best reading of what follows the host. -/
def parseAt? (host : Option (Text × Text)) (path : Text) : Option Image :=
  ((takeOwner? path).bind fun (owner, rest) =>
      (Target.parse? rest).map (ofParts host (some owner))).or
    ((Target.parse? path).map (ofParts host none))

/-- The best reading of a path. -/
def parse? (path : Text) : Option Image :=
  ((takeHost? path).bind fun (host, rest) => parseAt? (some host) rest).or (parseAt? none path)

/-- The best reading of a path, or why there is none. -/
def parse (path : Text) : Except Error Image :=
  if path = [] then .error .emptyImagePath
  else match parse? path with
    | some image => .ok image
    | none => .error (.mismatchedImage path)

/-! ## Writing -/

/-- A part of the path with what is written around it; a missing or empty part leaves no trace. -/
def part (field : Option Text) (write : Text → Text) : Text :=
  match field with
  | none | some [] => []
  | some text => write text

/-- The path: an id alone, or else the parts in order. A port without a registry is dropped. -/
def render (image : Image) : Text :=
  match image.id with
  | none | some [] =>
    part image.registry (fun registry => registry ++ part image.port (':' :: ·) ++ ['/']) ++
      part image.owner (· ++ ['/']) ++ image.repository ++ part image.tag (':' :: ·)
  | some id => id

end Image

end Dockerfile
