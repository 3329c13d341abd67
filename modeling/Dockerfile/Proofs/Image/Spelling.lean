import Dockerfile.Image
import Dockerfile.Proofs.Text.Cut

/-!
# What a reference keeps of its path

The parts that `Image.parse` finds in a path, put together again, are the path. Writing a reference
starts from the same parts, but an id is written alone, so a reference with an id reproduces its
path only if nothing stands before the id.

* `Image.takeHost?_eq_some_iff`, `Image.takeOwner?_eq_some_iff`: the paths with a host, and with an
  owner.
* `Image.parse_eq_ok_iff`, `Image.parseAt?_eq_some_iff`: the reading that is preferred.
* `Image.front`: what a path says before the repository or the id.
* `Image.Target.spelling_of_parse?`, `Image.parse_target`: no part of a path is lost in reading.
* `Image.render_eq_path_iff`: which references reproduce the path that they were read from.
-/

namespace Dockerfile

namespace Image

/-! ## The pieces of a path -/

theorem takeHost?_eq_some_iff {path host port rest : Text} :
    takeHost? path = some ((host, port), rest) ↔
      path = host ++ ':' :: (port ++ '/' :: rest) ∧ host ≠ [] ∧ (∀ c ∈ host, c ≠ ':' ∧ c ≠ '/') ∧
        port ≠ [] ∧ ∀ c ∈ port, c.isDigit := by
  constructor
  · intro h
    unfold takeHost? at h
    simp only at h
    split at h
    · rename_i after hafter
      split at h
      · rename_i rest' hrest
        split at h
        · cases h
        · rename_i hne
          simp only [Option.some.injEq, Prod.mk.injEq] at h
          obtain ⟨⟨rfl, rfl⟩, rfl⟩ := h
          obtain ⟨hpath, hcs, -⟩ := Text.cut_iff.mp ⟨rfl, hafter⟩
          obtain ⟨hport, hds, -⟩ := Text.cut_iff.mp ⟨rfl, hrest⟩
          rw [not_or] at hne
          refine ⟨?_, hne.1, fun c hc => by simpa using hcs c hc, hne.2, hds⟩
          rw [← hport]
          exact hpath
      · cases h
    · cases h
  · rintro ⟨hpath, hhost, hcs, hport, hds⟩
    obtain ⟨h1, h2⟩ := Text.cut_iff.mpr
      ⟨hpath, fun c hc => decide_eq_true (p := c ≠ ':' ∧ c ≠ '/') (hcs c hc), by simp⟩
    obtain ⟨h3, h4⟩ := Text.cut_iff.mpr
      ⟨Eq.refl (port ++ '/' :: rest), hds, show Char.isDigit '/' = false by decide⟩
    unfold takeHost?
    simp only [h1, h2, h3, h4, hhost, hport, or_self, ↓reduceIte]

theorem takeOwner?_eq_some_iff {path owner rest : Text} :
    takeOwner? path = some (owner, rest) ↔
      path = owner ++ '/' :: rest ∧ owner ≠ [] ∧ '/' ∉ owner := by
  constructor
  · intro h
    unfold takeOwner? at h
    simp only at h
    split at h
    · cases h
    · rename_i a rest' hrest
      split at h
      · cases h
      · rename_i hne
        simp only [Option.some.injEq, Prod.mk.injEq] at h
        obtain ⟨rfl, rfl⟩ := h
        obtain ⟨hpath, hcs, ha⟩ := Text.cut_iff.mp ⟨rfl, hrest⟩
        have ha : a = '/' := by simpa using ha
        rw [ha] at hpath
        exact ⟨hpath, hne, fun hmem => by simpa using hcs _ hmem⟩
  · rintro ⟨hpath, hne, hcs⟩
    obtain ⟨h1, h2⟩ := Text.cut_iff.mpr
      ⟨hpath, fun c hc => decide_eq_true (p := c ≠ '/') fun h => hcs (h ▸ hc), by simp⟩
    unfold takeOwner?
    simp only [h1, h2, hne, ↓reduceIte]

/-- A path is read with an owner, or without one where that is impossible. -/
theorem parseAt?_eq_some_iff {host : Option (Text × Text)} {path : Text} {image : Image} :
    parseAt? host path = some image ↔
      (∃ owner rest target, takeOwner? path = some (owner, rest) ∧
        Target.parse? rest = some target ∧ image = ofParts host (some owner) target) ∨
      (∀ owner rest, takeOwner? path = some (owner, rest) → Target.parse? rest = none) ∧
        ∃ target, Target.parse? path = some target ∧ image = ofParts host none target := by
  simp only [parseAt?, Option.or_eq_some_iff, Option.bind_eq_some_iff, Option.bind_eq_none_iff,
    Option.map_eq_some_iff, Option.map_eq_none_iff, Prod.exists, Prod.forall, eq_comm (a := image)]
  constructor
  · rintro (⟨owner, rest, howner, target, htarget, himage⟩ | h)
    · exact .inl ⟨owner, rest, target, howner, htarget, himage⟩
    · exact .inr h
  · rintro (⟨owner, rest, target, howner, htarget, himage⟩ | h)
    · exact .inl ⟨owner, rest, howner, target, htarget, himage⟩
    · exact .inr h

/-- A path is read with a host, or without one where that is impossible. -/
theorem parse_eq_ok_iff {path : Text} {image : Image} :
    parse path = .ok image ↔
      (∃ host rest, takeHost? path = some (host, rest) ∧ parseAt? (some host) rest = some image) ∨
      (∀ host rest, takeHost? path = some (host, rest) → parseAt? (some host) rest = none) ∧
        parseAt? none path = some image := by
  have hparse : parse path = .ok image ↔ parse? path = some image := by
    unfold parse
    by_cases hnil : path = []
    · subst hnil
      exact iff_of_false (by simp) (by simp [show parse? [] = none from rfl])
    · rw [if_neg hnil]
      cases parse? path <;> simp
  rw [hparse]
  simp only [parse?, Option.or_eq_some_iff, Option.bind_eq_some_iff, Option.bind_eq_none_iff,
    Prod.exists, Prod.forall]

theorem parse_eq_error {path : Text} {e : Error} (h : parse path = .error e) :
    ∃ detail, e = .badImage detail := by
  unfold parse at h
  split at h
  · cases h
    exact ⟨_, rfl⟩
  · split at h
    · cases h
    · cases h
      exact ⟨_, rfl⟩

/-- The end of a path that a target stands for. -/
def Target.spelling : Target → Text
  | .repository path tag => path ++ part tag (':' :: ·)
  | .id text => text

theorem Target.spelling_of_parse? {text : Text} {target : Target}
    (h : Target.parse? text = some target) : target.spelling = text := by
  unfold Target.parse? at h
  simp only at h
  split at h
  · split at h
    · cases h
    · cases h
      simp [spelling, part]
  · rename_i a tag htag
    obtain ⟨htext, -, ha⟩ := Text.cut_iff.mp ⟨rfl, htag⟩
    have ha : a = ':' := by simpa using ha
    rw [ha] at htext
    split at h
    · rename_i hnamed
      cases h
      cases tag with
      | nil => simp at hnamed
      | cons c tag => exact htext.symm
    · split at h
      · cases h
      · cases h
        rfl

theorem Target.ne_nil_of_parse? {text : Text} {target : Target}
    (h : Target.parse? text = some target) : text ≠ [] := by
  rintro rfl
  cases h

/-! ## The parts of a reference -/

theorem part_some {text : Text} (h : text ≠ []) (write : Text → Text) :
    part (some text) write = write text := by
  cases text with
  | nil => contradiction
  | cons c text => rfl

theorem part_eq_nil_iff {field : Option Text} {write : Text → Text} (hfield : field ≠ some [])
    (hwrite : ∀ text, write text ≠ []) : part field write = [] ↔ field = none := by
  cases field with
  | none => simp [part]
  | some text => simp [part_some (by simpa using hfield), hwrite]

/-- What a path says before the repository or the id. -/
def front (image : Image) : Text :=
  part image.registry (fun registry => registry ++ part image.port (':' :: ·) ++ ['/']) ++
    part image.owner (· ++ ['/'])

theorem front_eq_nil_iff {image : Image} (hregistry : image.registry ≠ some [])
    (howner : image.owner ≠ some []) :
    image.front = [] ↔ image.registry = none ∧ image.owner = none := by
  rw [front, List.append_eq_nil_iff, part_eq_nil_iff hregistry (by simp),
    part_eq_nil_iff howner (by simp)]

theorem render_of_id_none {image : Image} (h : image.id = none) :
    image.render = image.front ++ image.repository ++ part image.tag (':' :: ·) := by
  simp only [render, h, front, List.append_assoc]

theorem render_of_id {image : Image} {id : Text} (hid : id ≠ []) (h : image.id = some id) :
    image.render = id := by
  cases id with
  | nil => contradiction
  | cons c id => simp only [render, h]

/-- The parts of a best reading are those of the host and of some owner and target that the path
consists of. -/
theorem parseAt?_target {host : Option (Text × Text)} {path : Text} {image : Image}
    (h : parseAt? host path = some image) :
    ∃ owner target, image = ofParts host owner target ∧ owner ≠ some [] ∧
      Target.parse? target.spelling = some target ∧
      path = part owner (· ++ ['/']) ++ target.spelling := by
  rcases parseAt?_eq_some_iff.mp h with
    ⟨owner, rest, target, howner, htarget, rfl⟩ | ⟨-, target, htarget, rfl⟩
  · obtain ⟨rfl, hne, -⟩ := takeOwner?_eq_some_iff.mp howner
    have hspell := Target.spelling_of_parse? htarget
    exact ⟨some owner, target, rfl, by simpa using hne, by rw [hspell, htarget],
      by simp [part_some hne, hspell]⟩
  · have hspell := Target.spelling_of_parse? htarget
    exact ⟨none, target, rfl, by simp, by rw [hspell, htarget], by simp [part, hspell]⟩

theorem parse_target {path : Text} {image : Image} (h : parse path = .ok image) :
    ∃ host owner target, image = ofParts host owner target ∧ image.registry ≠ some [] ∧
      image.owner ≠ some [] ∧ Target.parse? target.spelling = some target ∧
      path = image.front ++ target.spelling := by
  rcases parse_eq_ok_iff.mp h with ⟨⟨host, port⟩, rest, hhost, hrest⟩ | ⟨-, hrest⟩
  · obtain ⟨rfl, hne, -, hport, -⟩ := takeHost?_eq_some_iff.mp hhost
    obtain ⟨owner, target, rfl, howner, htarget, rfl⟩ := parseAt?_target hrest
    refine ⟨some (host, port), owner, target, rfl, ?_, ?_, htarget, ?_⟩
    · cases target <;> simpa [ofParts] using hne
    · cases target <;> simpa [ofParts] using howner
    · cases target <;> simp [front, ofParts, part_some hne, part_some hport]
  · obtain ⟨owner, target, rfl, howner, htarget, rfl⟩ := parseAt?_target hrest
    refine ⟨none, owner, target, rfl, ?_, ?_, htarget, ?_⟩
    · cases target <;> simp [ofParts]
    · cases target <;> simpa [ofParts] using howner
    · cases target <;> simp [front, ofParts, part]

/-- No part of a best reading is empty. -/
theorem parse_parts {path : Text} {image : Image} (h : parse path = .ok image) :
    ∃ host owner target, image = ofParts host owner target ∧ image.registry ≠ some [] ∧
      image.owner ≠ some [] ∧ target.spelling ≠ [] ∧ path = image.front ++ target.spelling := by
  obtain ⟨host, owner, target, himage, hregistry, howner, htarget, hpath⟩ := parse_target h
  exact ⟨host, owner, target, himage, hregistry, howner, Target.ne_nil_of_parse? htarget, hpath⟩

/-! ## Writing what was read -/

/-- A reference reproduces the path that it was read from exactly if it has no id or nothing stands
before the id. Otherwise what stands before the id is lost, and nothing else. -/
theorem render_eq_path_iff {path : Text} {image : Image} (h : parse path = .ok image) :
    (image.render = path ↔ image.id = none ∨ image.registry = none ∧ image.owner = none) ∧
      (image.id ≠ none → path = image.front ++ image.render) := by
  obtain ⟨host, owner, target, himage, hregistry, howner, hspell, hpath⟩ := parse_parts h
  cases target with
  | repository repository tag =>
    have hid : image.id = none := by simp [himage, ofParts]
    have hrender : image.render = path := by
      rw [render_of_id_none hid, hpath, List.append_assoc]
      simp [himage, ofParts, Target.spelling]
    simp [hid, hrender]
  | id id =>
    have hid : image.id = some id := by simp [himage, ofParts]
    have hrender : image.render = id := render_of_id hspell hid
    have hlost : path = image.front ++ image.render := by
      rw [hrender]
      exact hpath
    refine ⟨?_, fun _ => hlost⟩
    rw [← front_eq_nil_iff hregistry howner]
    constructor
    · intro heq
      rw [heq] at hlost
      exact .inr (List.append_left_eq_self.mp hlost.symm)
    · rintro (hnone | hfront)
      · rw [hid] at hnone
        cases hnone
      · rw [hlost, hfront, List.nil_append]

/-- An id behind a registry and an owner: both are lost. -/
theorem render_idBehindRegistry :
    let path := "localhost:5000/team/app:".toList
    let image : Image :=
      { registry := some "localhost".toList, port := some "5000".toList,
        owner := some "team".toList, id := some "app:".toList }
    parse path = .ok image ∧
      (image.render = path ↔ image.id = none ∨ image.registry = none ∧ image.owner = none) ∧
      (image.id ≠ none → path = image.front ++ image.render) :=
  ⟨by decide +kernel, render_eq_path_iff (by decide +kernel)⟩

/-- Not every reference reproduces its path: `team/app:` is read as the id `app:` of the owner
`team`, and written without the owner. -/
theorem exists_render_ne_path :
    ¬ ∀ (path : Text) (image : Image),
      path ≠ [] → parse path = .ok image → image.render = path := by
  intro h
  have hpath := h "team/app:".toList { owner := some "team".toList, id := some "app:".toList }
    (by decide) (by decide +kernel)
  exact absurd hpath (by decide)

end Image

end Dockerfile
