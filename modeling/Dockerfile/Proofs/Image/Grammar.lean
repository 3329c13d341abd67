import Dockerfile.Proofs.Image.Tag

/-!
# The grammar of image paths

Colons and slashes stand between different parts of a path, so there may be several ways to take it
apart. The grammar `[host:port/][owner/](repository[:tag] | id)` says which ways there are, and an
order on them says which one is preferred. `Image.parse` looks at the first separator of each part
only, and never comes back to it. That is enough: the first separator leaves one choice for each part
that is present, so two ways to take a path apart differ in which parts are present.

* `Image.Reading`, `Image.Reading.Spells`: the ways to take a path apart.
* `Image.Reading.Before`: the order in which they are preferred.
* `Image.spells_host_iff`, `Image.spells_owner_iff`: the first separator decides.
* `Image.exists_first_of_parse`, `Image.exists_parse_of_spells`: what is read comes first, and
  something is read if there is a reading.
* `Image.parse_eq_first`: both together.
-/

namespace Dockerfile

namespace Image

/-! ## The grammar -/

/-- The ends of a path: a repository without or with a tag, or an id. -/
inductive Target.Spells : Target → Text → Prop
  | repository {repository : Text} : repository ≠ [] → ':' ∉ repository →
      Spells (.repository repository none) repository
  | tagged {repository tag : Text} : repository ≠ [] → ':' ∉ repository → tag ≠ [] → '/' ∉ tag →
      Spells (.repository repository (some tag)) (repository ++ ':' :: tag)
  | id {id : Text} : id ≠ [] → '/' ∉ id → Spells (.id id) id

/-- The parts that a path is taken apart into. -/
structure Reading where
  /-- A host and its port. -/
  host : Option (Text × Text)
  owner : Option Text
  target : Target

namespace Reading

/-- The parts, with their separators, make up the path. -/
inductive Spells : Reading → Text → Prop
  | target {target : Target} {text : Text} : target.Spells text → Spells ⟨none, none, target⟩ text
  | owner {owner : Text} {target : Target} {text : Text} : owner ≠ [] → '/' ∉ owner →
      Spells ⟨none, none, target⟩ text → Spells ⟨none, some owner, target⟩ (owner ++ '/' :: text)
  | host {name port : Text} {owner : Option Text} {target : Target} {text : Text} : name ≠ [] →
      (∀ c ∈ name, c ≠ ':' ∧ c ≠ '/') → port ≠ [] → (∀ c ∈ port, c.isDigit) →
      Spells ⟨none, owner, target⟩ text →
      Spells ⟨some (name, port), owner, target⟩ (name ++ ':' :: (port ++ '/' :: text))

/-- The first reading is preferred: one with a host to one without, then one with an owner to one
without, then a repository to an id. -/
inductive Before : Reading → Reading → Prop
  | host {host : Text × Text} {owner owner' : Option Text} {target target' : Target} :
      Before ⟨some host, owner, target⟩ ⟨none, owner', target'⟩
  | owner {host host' : Option (Text × Text)} {owner : Text} {target target' : Target} :
      host.isSome = host'.isSome → Before ⟨host, some owner, target⟩ ⟨host', none, target'⟩
  | target {host host' : Option (Text × Text)} {owner owner' tag : Option Text}
      {repository id : Text} : host.isSome = host'.isSome → owner.isSome = owner'.isSome →
      Before ⟨host, owner, .repository repository tag⟩ ⟨host', owner', .id id⟩

theorem Before.asymm {r s : Reading} (h : r.Before s) : ¬ s.Before r := by
  intro h'
  cases h with
  | host => cases h' <;> contradiction
  | owner => cases h' <;> contradiction
  | target => cases h' <;> contradiction

/-- The reference with these parts and no others. -/
def image (r : Reading) : Image where
  registry := r.host.map (·.1)
  port := r.host.map (·.2)
  owner := r.owner
  repository := match r.target with
    | .repository repository _ => repository
    | .id _ => []
  tag := match r.target with
    | .repository _ tag => tag
    | .id _ => none
  id := match r.target with
    | .repository _ _ => none
    | .id id => some id

end Reading

theorem ofParts_eq_image (host : Option (Text × Text)) (owner : Option Text) (target : Target) :
    ofParts host owner target = (⟨host, owner, target⟩ : Reading).image := by
  cases target <;> rfl

/-! ## The end of a path -/

namespace Target

variable {text repository : Text} {tag : Option Text} {target : Target}

theorem spells_repository_iff :
    (Target.repository repository tag).Spells text ↔
      parse? text = some (.repository repository tag) := by
  rw [parse?_eq_repository_iff]
  constructor
  · intro h
    cases h with
    | repository hne hcolon => exact ⟨by simp [part], hne, hcolon, by simp⟩
    | tagged hne hcolon htag hslash =>
      exact ⟨by rw [part_some htag], hne, hcolon, by simp [htag, hslash]⟩
  · rintro ⟨rfl, hne, hcolon, htag⟩
    cases tag with
    | none => simpa [part] using Spells.repository hne hcolon
    | some tag =>
      obtain ⟨htne, hslash⟩ := htag tag rfl
      rw [part_some htne]
      exact .tagged hne hcolon htne hslash

/-- A text without a slash is an id, if it is nothing better. -/
theorem parse?_ne_none (hne : text ≠ []) (hslash : '/' ∉ text) : parse? text ≠ none := by
  unfold parse?
  simp only
  split
  · simp [hne]
  · split <;> simp

theorem exists_parse?_of_spells (h : target.Spells text) : ∃ t, parse? text = some t := by
  cases target with
  | repository repository tag => exact ⟨_, spells_repository_iff.mp h⟩
  | id id =>
    cases h with
    | id hne hslash => exact Option.ne_none_iff_exists'.mp (parse?_ne_none hne hslash)

/-- What is read at the end of a path is an end of it, and the only one unless it is a repository
and the other one an id. -/
theorem first_of_parse? (h : parse? text = some target) :
    target.Spells text ∧ ∀ t : Target, t.Spells text → t = target ∨
      ∃ repository tag id, target = .repository repository tag ∧ t = .id id := by
  cases target with
  | repository repository tag =>
    refine ⟨spells_repository_iff.mpr h, fun t ht => ?_⟩
    cases t with
    | repository repository' tag' =>
      rw [spells_repository_iff.mp ht] at h
      exact .inl (Option.some.inj h)
    | id id => exact .inr ⟨_, _, _, rfl, rfl⟩
  | id id =>
    obtain rfl : id = text := spelling_of_parse? h
    refine ⟨.id (ne_nil_of_parse? h) (not_mem_of_parse?_id h), fun t ht => .inl ?_⟩
    cases t with
    | repository repository tag =>
      rw [spells_repository_iff.mp ht] at h
      cases h
    | id id =>
      cases ht
      rfl

end Target

variable {path name port : Text} {host : Option (Text × Text)} {target : Target} {image : Image}

/-! ## The parts before it -/

theorem spells_target_iff : (⟨none, none, target⟩ : Reading).Spells path ↔ target.Spells path := by
  constructor
  · rintro ⟨h⟩
    exact h
  · exact .target

/-- An owner reaches up to the first slash. -/
theorem spells_owner_iff {owner : Text} :
    (⟨none, some owner, target⟩ : Reading).Spells path ↔
      ∃ rest, takeOwner? path = some (owner, rest) ∧ target.Spells rest := by
  simp only [takeOwner?_eq_some_iff]
  constructor
  · intro h
    cases h with
    | owner hne hslash hrest => exact ⟨_, ⟨rfl, hne, hslash⟩, spells_target_iff.mp hrest⟩
  · rintro ⟨rest, ⟨rfl, hne, hslash⟩, hrest⟩
    exact .owner hne hslash (.target hrest)

/-- A host reaches up to the first colon, and its port up to the slash behind the digits. -/
theorem spells_host_iff {owner : Option Text} :
    (⟨some (name, port), owner, target⟩ : Reading).Spells path ↔
      ∃ rest, takeHost? path = some ((name, port), rest) ∧
        (⟨none, owner, target⟩ : Reading).Spells rest := by
  simp only [takeHost?_eq_some_iff]
  constructor
  · intro h
    cases h with
    | host hne hname hport hdigits hrest => exact ⟨_, ⟨rfl, hne, hname, hport, hdigits⟩, hrest⟩
  · rintro ⟨rest, ⟨rfl, hne, hname, hport, hdigits⟩, hrest⟩
    exact .host hne hname hport hdigits hrest

theorem exists_parseAt?_of_spells {owner : Option Text}
    (h : (⟨none, owner, target⟩ : Reading).Spells path) : ∃ image, parseAt? host path = some image := by
  cases owner with
  | none =>
    obtain ⟨t, ht⟩ := Target.exists_parse?_of_spells (spells_target_iff.mp h)
    exact Option.ne_none_iff_exists'.mp (by simp [parseAt?, ht])
  | some owner =>
    obtain ⟨rest, howner, hrest⟩ := spells_owner_iff.mp h
    obtain ⟨t, ht⟩ := Target.exists_parse?_of_spells hrest
    exact Option.ne_none_iff_exists'.mp (by simp [parseAt?, howner, ht])

/-- What is read behind the host, or where there is none, comes before all other ways to take apart
the same text with no further host. -/
theorem exists_first_of_parseAt? (h : parseAt? host path = some image) :
    ∃ owner target, image = (⟨host, owner, target⟩ : Reading).image ∧
      (⟨none, owner, target⟩ : Reading).Spells path ∧
      ∀ owner' target', (⟨none, owner', target'⟩ : Reading).Spells path →
        owner' = owner ∧ target' = target ∨
          Reading.Before ⟨host, owner, target⟩ ⟨host, owner', target'⟩ := by
  simp only [← ofParts_eq_image]
  rcases parseAt?_eq_some_iff.mp h with
    ⟨owner, rest, target, howner, htarget, rfl⟩ | ⟨hnone, target, htarget, rfl⟩
  · obtain ⟨hspells, hfirst⟩ := Target.first_of_parse? htarget
    refine ⟨some owner, target, rfl, spells_owner_iff.mpr ⟨rest, howner, hspells⟩, ?_⟩
    rintro (_ | owner') target' h'
    · exact .inr (.owner rfl)
    · obtain ⟨rest', howner', hspells'⟩ := spells_owner_iff.mp h'
      cases howner.symm.trans howner'
      rcases hfirst target' hspells' with rfl | ⟨_, _, _, rfl, rfl⟩
      · exact .inl ⟨rfl, rfl⟩
      · exact .inr (.target rfl rfl)
  · obtain ⟨hspells, hfirst⟩ := Target.first_of_parse? htarget
    refine ⟨none, target, rfl, .target hspells, ?_⟩
    rintro (_ | owner') target' h'
    · rcases hfirst target' (spells_target_iff.mp h') with rfl | ⟨_, _, _, rfl, rfl⟩
      · exact .inl ⟨rfl, rfl⟩
      · exact .inr (.target rfl rfl)
    · -- With an owner, the text would have been read with it.
      obtain ⟨rest', howner', hspells'⟩ := spells_owner_iff.mp h'
      obtain ⟨t, ht⟩ := Target.exists_parse?_of_spells hspells'
      rw [hnone owner' rest' howner'] at ht
      cases ht

/-! ## The whole path -/

/-- What is read comes before all other ways to take the path apart. -/
theorem exists_first_of_parse (h : parse path = .ok image) :
    ∃ r : Reading, r.Spells path ∧ (∀ s : Reading, s.Spells path → s = r ∨ r.Before s) ∧
      image = r.image := by
  rcases parse_eq_ok_iff.mp h with ⟨⟨name, port⟩, rest, hhost, hrest⟩ | ⟨hnone, hat⟩
  · obtain ⟨owner, target, himage, hspells, hfirst⟩ := exists_first_of_parseAt? hrest
    refine ⟨_, spells_host_iff.mpr ⟨rest, hhost, hspells⟩, ?_, himage⟩
    rintro ⟨_ | ⟨name', port'⟩, owner', target'⟩ hs
    · exact .inr .host
    · obtain ⟨rest', hhost', hspells'⟩ := spells_host_iff.mp hs
      cases hhost.symm.trans hhost'
      rcases hfirst owner' target' hspells' with ⟨rfl, rfl⟩ | hbefore
      · exact .inl rfl
      · exact .inr hbefore
  · obtain ⟨owner, target, himage, hspells, hfirst⟩ := exists_first_of_parseAt? hat
    refine ⟨_, hspells, ?_, himage⟩
    rintro ⟨_ | ⟨name', port'⟩, owner', target'⟩ hs
    · rcases hfirst owner' target' hs with ⟨rfl, rfl⟩ | hbefore
      · exact .inl rfl
      · exact .inr hbefore
    · -- With a host, the path would have been read with it.
      obtain ⟨rest', hhost', hspells'⟩ := spells_host_iff.mp hs
      obtain ⟨other, hother⟩ := exists_parseAt?_of_spells hspells'
      rw [hnone _ _ hhost'] at hother
      cases hother

theorem exists_parse_of_spells {r : Reading} (h : r.Spells path) :
    ∃ image, parse path = .ok image := by
  by_cases hhost : ∃ host rest image,
      takeHost? path = some (host, rest) ∧ parseAt? (some host) rest = some image
  · obtain ⟨host, rest, image, hpath, hrest⟩ := hhost
    exact ⟨image, parse_eq_ok_iff.mpr (.inl ⟨host, rest, hpath, hrest⟩)⟩
  · have hnone : ∀ host rest, takeHost? path = some (host, rest) →
        parseAt? (some host) rest = none := fun host rest hpath => by
      by_contra hsome
      obtain ⟨image, himage⟩ := Option.ne_none_iff_exists'.mp hsome
      exact hhost ⟨host, rest, image, hpath, himage⟩
    rcases r with ⟨_ | ⟨name, port⟩, owner, target⟩
    · obtain ⟨image, hat⟩ := exists_parseAt?_of_spells h
      exact ⟨image, parse_eq_ok_iff.mpr (.inr ⟨hnone, hat⟩)⟩
    · obtain ⟨rest, hpath, hrest⟩ := spells_host_iff.mp h
      obtain ⟨image, hat⟩ := exists_parseAt?_of_spells hrest
      exact absurd ⟨_, _, image, hpath, hat⟩ hhost

/-- A path is refused exactly if it cannot be taken apart. Otherwise the reference has the parts of
the reading that comes before all others, and no other parts. -/
theorem parse_eq_first (path : Text) :
    ((∃ detail, parse path = .error (.badImage detail)) ↔ ∀ r : Reading, ¬ r.Spells path) ∧
      ∀ image, parse path = .ok image ↔ ∃ r : Reading, r.Spells path ∧
        (∀ s : Reading, s.Spells path → s = r ∨ r.Before s) ∧ image = r.image := by
  refine ⟨⟨?_, fun hnone => ?_⟩, fun image => ⟨exists_first_of_parse, ?_⟩⟩
  · rintro ⟨detail, herror⟩ r hr
    obtain ⟨image, himage⟩ := exists_parse_of_spells hr
    rw [herror] at himage
    cases himage
  · cases hparse : parse path with
    | error e =>
      obtain ⟨detail, rfl⟩ := parse_eq_error hparse
      exact ⟨detail, rfl⟩
    | ok image =>
      obtain ⟨r, hr, -⟩ := exists_first_of_parse hparse
      exact absurd hr (hnone r)
  · rintro ⟨r, hr, hfirst, rfl⟩
    obtain ⟨image, himage⟩ := exists_parse_of_spells hr
    obtain ⟨s, hs, hfirst', rfl⟩ := exists_first_of_parse himage
    rcases hfirst s hs with rfl | hrs
    · exact himage
    · rcases hfirst' r hr with rfl | hsr
      · exact himage
      · exact absurd hsr hrs.asymm

end Image

end Dockerfile
