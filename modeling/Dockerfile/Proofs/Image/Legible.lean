import Dockerfile.Proofs.Image.Tag

/-!
# References that are read back

Writing a reference puts its parts one behind the other, and reading has to find the borders again: a
port is not a tag, a host with its port is not an owner, and an owner is not the start of a
repository.

* `Image.Legible`: the references whose parts can be told apart in the path.
* `Image.Legible.takeOwner?_inside`, `Image.Legible.takeHost?_inside`: the borders that are found.
* `Image.parse_render`: such a reference is read back.
-/

namespace Dockerfile

namespace Image

/-- The two texts are the name of a registry and its port. -/
def IsHost (name port : Text) : Prop :=
  name ≠ [] ∧ (∀ c ∈ name, c ≠ ':' ∧ c ≠ '/') ∧ port ≠ [] ∧ ∀ c ∈ port, c.isDigit

/-- The parts of a named reference can be told apart in its path. -/
structure Legible (image : Image) : Prop where
  id : image.id = none
  host : image.registry = none ∧ image.port = none ∨
    ∃ name port, image.registry = some name ∧ image.port = some port ∧ IsHost name port
  owner : ∀ owner ∈ image.owner, owner ≠ [] ∧ '/' ∉ owner
  /-- Without a registry, the owner cannot be taken for one with its port. -/
  owner_ne_host : image.registry = none → ∀ owner ∈ image.owner, ∀ name port, IsHost name port →
    owner ≠ name ++ ':' :: port
  repository : image.repository ≠ [] ∧ ':' ∉ image.repository
  /-- Without an owner, none can be split off the repository. -/
  repository_ne_owner : image.owner = none →
    '/' ∉ image.repository ∨ image.repository.head? = some '/'
  tag : ∀ tag ∈ image.tag, tag ≠ [] ∧ '/' ∉ tag

variable {image : Image}

/-- The path of the reference behind its host and its owner. -/
def named (image : Image) : Text := image.repository ++ part image.tag (':' :: ·)

/-- The path of the reference behind its host. -/
def inside (image : Image) : Text := part image.owner (· ++ ['/']) ++ image.named

namespace Legible

theorem parse?_named (h : image.Legible) :
    Target.parse? image.named = some (.repository image.repository image.tag) :=
  Target.parse?_eq_repository_iff.mpr ⟨rfl, h.repository.1, h.repository.2, h.tag⟩

/-- Without an owner, none is found: the slashes of the repository stand at its start only. -/
theorem takeOwner?_named (h : image.Legible) (howner : image.owner = none) :
    takeOwner? image.named = none := by
  by_contra hsome
  obtain ⟨⟨owner, rest⟩, hsplit⟩ := Option.ne_none_iff_exists'.mp hsome
  obtain ⟨hpath, hne, hslash⟩ := takeOwner?_eq_some_iff.mp hsplit
  have htag : '/' ∉ part image.tag (':' :: ·) := by
    cases htag : image.tag with
    | none => simp [part]
    | some tag =>
      obtain ⟨hne, hslash⟩ := h.tag tag htag
      simp [part_some hne, hslash]
  rcases h.repository_ne_owner howner with hrepository | hrepository
  · have hmem : '/' ∈ image.named := by simp [hpath]
    rcases List.mem_append.mp hmem with hmem | hmem
    · exact hrepository hmem
    · exact htag hmem
  · obtain ⟨c, owner, rfl⟩ := List.exists_cons_of_ne_nil hne
    have hhead := congrArg List.head? hpath
    rw [named, List.head?_append, hrepository] at hhead
    cases hhead
    exact hslash List.mem_cons_self

/-- Of the path behind the host, the owner is split off. -/
theorem takeOwner?_inside (h : image.Legible) :
    takeOwner? image.inside = image.owner.map (·, image.named) := by
  cases howner : image.owner with
  | none => simpa [inside, howner, part] using h.takeOwner?_named howner
  | some owner =>
    obtain ⟨hne, hslash⟩ := h.owner owner howner
    refine takeOwner?_eq_some_iff.mpr ⟨?_, hne, hslash⟩
    simp [inside, howner, part_some hne]

/-- Behind the host of the reference, the rest of it is read. -/
theorem parseAt?_inside (h : image.Legible) {host : Option (Text × Text)}
    (hregistry : image.registry = host.map (·.1)) (hport : image.port = host.map (·.2)) :
    parseAt? host image.inside = some image := by
  have himage : ofParts host image.owner (.repository image.repository image.tag) = image := by
    rw [ofParts, ← hregistry, ← hport]
    have hid := h.id
    cases image
    cases hid
    rfl
  cases howner : image.owner with
  | none =>
    have hinside : image.inside = image.named := by simp [inside, howner, part]
    rw [howner] at himage
    simp [parseAt?, hinside, h.takeOwner?_named howner, h.parse?_named, himage]
  | some owner =>
    have hread := h.takeOwner?_inside
    rw [howner] at hread himage
    simp [parseAt?, hread, h.parse?_named, himage]

/-- Without a registry, none is found: it would be read as an owner as well. -/
theorem takeHost?_inside (h : image.Legible) (hregistry : image.registry = none) :
    takeHost? image.inside = none := by
  by_contra hsome
  obtain ⟨⟨⟨name, port⟩, rest⟩, hhost⟩ := Option.ne_none_iff_exists'.mp hsome
  obtain ⟨-, hname⟩ := takeHost?_eq_some_iff.mp hhost
  have hread := takeOwner?_of_takeHost? hhost
  rw [h.takeOwner?_inside] at hread
  obtain ⟨owner, howner, hsplit⟩ := Option.map_eq_some_iff.mp hread
  exact h.owner_ne_host hregistry owner howner name port hname (congrArg Prod.fst hsplit)

end Legible

/-- A reference whose parts can be told apart is read back from its path. -/
theorem parse_render (h : image.Legible) : parse image.render = .ok image := by
  have hrender : image.render =
      part image.registry (fun registry => registry ++ part image.port (':' :: ·) ++ ['/']) ++
        image.inside := by
    simp only [render_of_id_none h.id, front, inside, named, List.append_assoc]
  rw [parse_eq_ok_iff]
  rcases h.host with ⟨hregistry, hport⟩ | ⟨name, port, hregistry, hport, hhost⟩
  · have hpath : image.render = image.inside := by simp [hrender, hregistry, part]
    rw [hpath]
    refine .inr ⟨fun host rest hsome => ?_, h.parseAt?_inside hregistry hport⟩
    rw [h.takeHost?_inside hregistry] at hsome
    cases hsome
  · have hpath : image.render = name ++ ':' :: (port ++ '/' :: image.inside) := by
      simp [hrender, hregistry, hport, part_some hhost.1, part_some hhost.2.2.1]
    exact .inl ⟨(name, port), image.inside, takeHost?_eq_some_iff.mpr ⟨hpath, hhost⟩,
      h.parseAt?_inside hregistry hport⟩

/-- A port behind the registry, an owner that looks like a host with its port, a repository with
slashes at its start and inside, and a tag that looks like a port. -/
def denseImage : Image where
  registry := some "a".toList
  port := some "1".toList
  owner := some "b:2".toList
  repository := "/c/d".toList
  tag := some "3".toList

theorem parse_render_denseImage :
    denseImage.Legible ∧ denseImage.render = "a:1/b:2//c/d:3".toList ∧
      parse denseImage.render = .ok denseImage := by
  have h : denseImage.Legible :=
    { id := rfl
      host := .inr ⟨"a".toList, "1".toList, rfl, rfl, by decide, by simp, by decide, by simp⟩
      owner := by simp [denseImage]
      owner_ne_host := by simp [denseImage]
      repository := by simp [denseImage]
      repository_ne_owner := by simp [denseImage]
      tag := by simp [denseImage] }
  exact ⟨h, by decide, parse_render h⟩

end Image

end Dockerfile
