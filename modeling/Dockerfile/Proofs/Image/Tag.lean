import Dockerfile.Proofs.Image.Spelling

/-!
# Another tag

Giving a reference another tag, and writing it, is meant to change nothing in the path but the tag.

* `Image.TagChange`, `Image.tagChange_render_iff`: so it is for the references without an id, and
  for an id with nothing before it.
* `Image.Target.parse?_eq_repository_iff`: the ends of a path that name a repository.
* `Image.Dangling`, `Image.parse_render_tagged_iff`: the path with the new tag is read as the same
  reference with that tag, but for the references that end in a lone segment and a slash.
* `Image.parse_render_dangling`: for those, the segment is read as the owner of an id.
-/

namespace Dockerfile

namespace Image

variable {path before after tag : Text} {image : Image} {host : Option (Text × Text)}

/-! ## The ends of a path -/

namespace Target

theorem parse?_eq_repository_iff {text repository : Text} {tag : Option Text} :
    parse? text = some (.repository repository tag) ↔
      text = repository ++ part tag (':' :: ·) ∧ repository ≠ [] ∧ ':' ∉ repository ∧
        ∀ t ∈ tag, t ≠ [] ∧ '/' ∉ t := by
  constructor
  · intro h
    have htext := spelling_of_parse? h
    unfold parse? at h
    simp only at h
    split at h
    · rename_i hall
      rw [List.dropWhile_eq_nil_iff] at hall
      split at h
      · cases h
      · rename_i hne
        cases h
        exact ⟨htext.symm, hne, fun hmem => by simpa using hall _ hmem, by simp⟩
    · split at h
      · rename_i hnamed
        cases h
        refine ⟨htext.symm, hnamed.1, fun hmem => ?_, by simpa using hnamed.2⟩
        simpa using List.mem_takeWhile_imp hmem
      · split at h <;> cases h
  · rintro ⟨rfl, hne, hcolon, htag⟩
    have hall : ∀ c ∈ repository, decide (c ≠ ':') = true :=
      fun c hc => decide_eq_true fun h => hcolon (h ▸ hc)
    unfold parse?
    cases tag with
    | none =>
      simp only [part, List.append_nil, List.dropWhile_eq_nil_iff.mpr hall, hne, if_false]
    | some t =>
      obtain ⟨htne, hslash⟩ := htag t rfl
      obtain ⟨h1, h2⟩ := Text.cut_iff.mpr ⟨Eq.refl (repository ++ ':' :: t), hall, by simp⟩
      simp only [part_some htne, h1, h2]
      exact if_pos ⟨hne, htne, hslash⟩

/-- An id has no slash. -/
theorem not_mem_of_parse?_id {text id : Text} (h : parse? text = some (.id id)) : '/' ∉ id := by
  unfold parse? at h
  simp only at h
  split at h
  · split at h <;> cases h
  · split at h
    · cases h
    · split at h
      · cases h
      · rename_i hslash
        cases h
        exact hslash

/-- A colon with nothing before it makes an id. -/
theorem parse?_colon {text : Text} (h : '/' ∉ text) : parse? (':' :: text) ≠ none := by
  simp [parse?, h]

end Target

/-- A host or an owner is written with a slash behind it. -/
theorem slash_mem_front (h : image.front ≠ []) : '/' ∈ image.front := by
  unfold front part at h ⊢
  split at h <;> split at h <;> simp_all

/-! ## The change of the path -/

/-- The paths before and after a change of the tag: they are the same, or the second is the first
with this tag, in the place of its own one if it had any. -/
def TagChange (tag before after : Text) : Prop :=
  after = before ∨
    ∃ stem, (before = stem ∨ ∃ old, before = stem ++ ':' :: old) ∧ after = stem ++ ':' :: tag

/-- A path without an id ends in a repository and perhaps a tag. -/
theorem path_of_id_none (h : parse path = .ok image) (hid : image.id = none) :
    path = image.front ++ image.repository ++ part image.tag (':' :: ·) ∧
      image.repository ≠ [] := by
  obtain ⟨host, owner, target, himage, -, -, htarget, hpath⟩ := parse_target h
  cases target with
  | repository repository tag =>
    obtain ⟨-, hne, -⟩ := Target.parse?_eq_repository_iff.mp htarget
    obtain ⟨rfl, rfl⟩ : image.repository = repository ∧ image.tag = tag := by
      simp [himage, ofParts]
    exact ⟨by rw [List.append_assoc]; exact hpath, hne⟩
  | id id =>
    rw [himage] at hid
    cases hid

/-- A path with an id ends in it, and the id has no slash. -/
theorem path_of_id_some {id : Text} (h : parse path = .ok image) (hid : image.id = some id) :
    path = image.front ++ id ∧ id ≠ [] ∧ '/' ∉ id ∧ image.repository = [] := by
  obtain ⟨host, owner, target, himage, -, -, htarget, hpath⟩ := parse_target h
  cases target with
  | repository repository tag =>
    rw [himage] at hid
    cases hid
  | id id' =>
    obtain ⟨rfl, hrepository⟩ : id' = id ∧ image.repository = [] := by
      simpa [himage, ofParts] using hid
    exact ⟨hpath, Target.ne_nil_of_parse? htarget, Target.not_mem_of_parse?_id htarget, hrepository⟩

theorem render_tagged_of_id_none (hid : image.id = none) (htag : tag ≠ []) :
    ({ image with tag := some tag } : Image).render =
      image.front ++ image.repository ++ ':' :: tag := by
  have hid' : ({ image with tag := some tag } : Image).id = none := hid
  rw [render_of_id_none hid', part_some htag]
  rfl

/-- A change of the tag that keeps the text before it. With an id behind a registry or an owner, the
path that is written is the id alone. -/
theorem tagChange_render_iff (h : parse before = .ok image) (htag : tag ≠ [])
    (hafter : after = ({ image with tag := some tag } : Image).render) :
    (TagChange tag before after ∧ image.front ++ image.repository <+: after ↔
        image.id = none ∨ image.registry = none ∧ image.owner = none) ∧
      (image.id ≠ none → before = image.front ++ after) := by
  cases hid : image.id with
  | none =>
    obtain ⟨hbefore, -⟩ := path_of_id_none h hid
    rw [render_tagged_of_id_none hid htag] at hafter
    refine ⟨iff_of_true ⟨.inr ⟨_, ?_, hafter⟩, ?_⟩ (.inl rfl), fun hne => absurd rfl hne⟩
    · rw [hbefore]
      cases image.tag with
      | none => simp [part]
      | some old =>
        cases old with
        | nil => simp [part]
        | cons c old => exact .inr ⟨c :: old, rfl⟩
    · rw [hafter]
      exact List.prefix_append _ _
  | some id =>
    obtain ⟨hbefore, hne, hslash, hrepository⟩ := path_of_id_some h hid
    obtain ⟨-, -, -, -, hregistry, howner, -⟩ := parse_target h
    have hrender : after = id := hafter.trans (render_of_id hne hid)
    rw [hrender, hrepository, List.append_nil, ← front_eq_nil_iff hregistry howner]
    refine ⟨⟨?_, ?_⟩, fun _ => hbefore⟩
    · rintro ⟨-, hfront⟩
      right
      by_contra hne
      -- The front has a slash, and the id has none.
      exact hslash (hfront.subset (slash_mem_front hne))
    · rintro (hnone | hfront)
      · cases hnone
      · rw [hfront] at hbefore ⊢
        exact ⟨.inl hbefore.symm, List.nil_prefix⟩

/-! ## Reading the path with the new tag -/

/-- A slash that the second part of a text does not have stands in the first part. -/
theorem exists_of_append_eq {l r stem u : Text} (h : stem ++ u = l ++ '/' :: r) (hu : '/' ∉ u) :
    ∃ r', stem = l ++ '/' :: r' ∧ r = r' ++ u := by
  rcases List.append_eq_append_iff.mp h with ⟨a, -, rfl⟩ | ⟨b, rfl, hr⟩
  · simp at hu
  · cases b with
    | nil =>
      rw [List.nil_append] at hr
      simp [← hr] at hu
    | cons c b =>
      rw [List.cons_append, List.cons.injEq] at hr
      obtain ⟨rfl, rfl⟩ := hr
      exact ⟨b, rfl, rfl⟩

theorem Target.parse?_tagged {repository : Text} (hne : repository ≠ []) (hcolon : ':' ∉ repository)
    (htag : tag ≠ []) (hslash : '/' ∉ tag) :
    Target.parse? (repository ++ ':' :: tag) = some (.repository repository (some tag)) :=
  Target.parse?_eq_repository_iff.mpr ⟨by rw [part_some htag], hne, hcolon, by simp [htag, hslash]⟩

/-- A reference without an id names a repository, behind its owner or at the start. -/
theorem parseAt?_named (h : parseAt? host path = some image) (hid : image.id = none) :
    ∃ rest repository old, Target.parse? rest = some (.repository repository old) ∧
      ((∃ owner, takeOwner? path = some (owner, rest) ∧
          image = ofParts host (some owner) (.repository repository old)) ∨
        path = rest ∧ image = ofParts host none (.repository repository old) ∧
          ∀ owner rest, takeOwner? path = some (owner, rest) → Target.parse? rest = none) := by
  rcases parseAt?_eq_some_iff.mp h with
    ⟨owner, rest, target, howner, htarget, rfl⟩ | ⟨hnone, target, htarget, rfl⟩
  · cases target with
    | repository repository old =>
      exact ⟨rest, repository, old, htarget, .inl ⟨owner, howner, rfl⟩⟩
    | id id => cases hid
  · cases target with
    | repository repository old =>
      exact ⟨path, repository, old, htarget, .inr ⟨rfl, rfl, hnone⟩⟩
    | id id => cases hid

/-- The reference has no owner and ends in a single segment with a slash behind it. The segment is an
owner as soon as something follows the slash. -/
def Dangling (image : Image) : Prop :=
  image.owner = none ∧ ∃ segment, segment ≠ [] ∧ '/' ∉ segment ∧ image.repository = segment ++ ['/']

/-- Behind the host, a new tag does not make an owner of what was part of the repository. -/
theorem parseAt?_tagged (h : parseAt? host path = some image) (hid : image.id = none)
    (hdangling : ¬ image.Dangling) (htag : tag ≠ []) (hslash : '/' ∉ tag) :
    parseAt? host (part image.owner (· ++ ['/']) ++ image.repository ++ ':' :: tag) =
      some { image with tag := some tag } := by
  obtain ⟨rest, repository, old, htarget, hread⟩ := parseAt?_named h hid
  obtain ⟨rfl, hne, hcolon, hold⟩ := Target.parse?_eq_repository_iff.mp htarget
  have htagged := Target.parse?_tagged hne hcolon htag hslash
  rcases hread with ⟨owner, howner, rfl⟩ | ⟨rfl, rfl, hnone⟩
  · obtain ⟨-, howner, hno⟩ := takeOwner?_eq_some_iff.mp howner
    refine parseAt?_eq_some_iff.mpr (.inl ⟨owner, repository ++ ':' :: tag, _,
      takeOwner?_eq_some_iff.mpr ⟨?_, howner, hno⟩, htagged, rfl⟩)
    simp [ofParts, part_some howner]
  · refine parseAt?_eq_some_iff.mpr (.inr ⟨fun owner rest hsome => ?_, _, htagged, rfl⟩)
    obtain ⟨hpath, howner, hno⟩ := takeOwner?_eq_some_iff.mp hsome
    -- An owner in the new path is one in the old path, where what follows it is no target.
    obtain ⟨rest', hrepository, -⟩ :
        ∃ rest', repository = owner ++ '/' :: rest' ∧ rest = rest' ++ ':' :: tag :=
      exists_of_append_eq hpath (by simp [hslash])
    have hnil : rest' ≠ [] := by
      rintro rfl
      exact hdangling ⟨rfl, owner, howner, hno, hrepository⟩
    subst hrepository
    have hrest := hnone owner (rest' ++ part old (':' :: ·))
      (takeOwner?_eq_some_iff.mpr ⟨by simp, howner, hno⟩)
    have hsome := Target.parse?_eq_repository_iff.mpr
      ⟨Eq.refl (rest' ++ part old (':' :: ·)), hnil, fun hmem => hcolon (by simp [hmem]), hold⟩
    rw [hrest] at hsome
    cases hsome

/-- Behind the host, a new tag makes an owner of a lone segment, and an id of itself. -/
theorem parseAt?_dangling {segment : Text} (h : parseAt? host path = some image)
    (hid : image.id = none) (hne : segment ≠ []) (hno : '/' ∉ segment)
    (howner : image.owner = none) (hrepository : image.repository = segment ++ ['/'])
    (hslash : '/' ∉ tag) :
    parseAt? host (part image.owner (· ++ ['/']) ++ image.repository ++ ':' :: tag) =
      some { image with
        owner := some segment, repository := [], tag := none, id := some (':' :: tag) } := by
  obtain ⟨rest, repository, old, -, hread⟩ := parseAt?_named h hid
  have himage : image = ofParts host none (.repository repository old) := by
    rcases hread with ⟨owner, -, rfl⟩ | ⟨-, himage, -⟩
    · cases howner
    · exact himage
  have htarget : Target.parse? (':' :: tag) = some (.id (':' :: tag)) := by
    simp [Target.parse?, hslash]
  refine parseAt?_eq_some_iff.mpr (.inl ⟨segment, ':' :: tag, _,
    takeOwner?_eq_some_iff.mpr ⟨?_, hne, hno⟩, htarget, ?_⟩)
  · simp [howner, hrepository, part]
  · rw [himage]
    rfl

/-- A host and its port could also be read as an owner. -/
theorem takeOwner?_of_takeHost? {name port rest : Text}
    (h : takeHost? path = some ((name, port), rest)) :
    takeOwner? path = some (name ++ ':' :: port, rest) := by
  obtain ⟨hpath, -, hname, -, hport⟩ := takeHost?_eq_some_iff.mp h
  refine takeOwner?_eq_some_iff.mpr ⟨by simp [hpath], by simp, fun hmem => ?_⟩
  rcases List.mem_append.mp hmem with hmem | hmem
  · exact (hname _ hmem).2 rfl
  · rcases List.mem_cons.mp hmem with hcolon | hmem
    · cases hcolon
    · exact absurd (hport _ hmem) (by decide)

/-- A host in the path with the new tag was there before, with a target behind it. -/
theorem exists_takeHost?_of_tagged {name port rest : Text} (h : parseAt? none path = some image)
    (hid : image.id = none) (hslash : '/' ∉ tag)
    (hhost : takeHost? (part image.owner (· ++ ['/']) ++ image.repository ++ ':' :: tag) =
      some ((name, port), rest)) :
    ∃ rest' target, takeHost? path = some ((name, port), rest') ∧
      Target.parse? rest' = some target := by
  obtain ⟨rest', repository, old, htarget, hread⟩ := parseAt?_named h hid
  have hhost' := takeOwner?_of_takeHost? hhost
  rcases hread with ⟨owner, howner, rfl⟩ | ⟨rfl, rfl, -⟩
  · obtain ⟨hpath, hne, hno⟩ := takeOwner?_eq_some_iff.mp howner
    have howner' : takeOwner? (part (some owner) (· ++ ['/']) ++ repository ++ ':' :: tag) =
        some (owner, repository ++ ':' :: tag) :=
      takeOwner?_eq_some_iff.mpr ⟨by simp [part_some hne], hne, hno⟩
    obtain ⟨rfl, -⟩ := Prod.mk.inj (Option.some.inj (howner'.symm.trans hhost'))
    obtain ⟨-, hname⟩ := takeHost?_eq_some_iff.mp hhost
    exact ⟨rest', _, takeHost?_eq_some_iff.mpr ⟨by simp [hpath], hname⟩, htarget⟩
  · -- The repository would have the colon before the port.
    obtain ⟨-, -, hcolon, -⟩ := Target.parse?_eq_repository_iff.mp htarget
    obtain ⟨hpath, -⟩ := takeOwner?_eq_some_iff.mp hhost'
    obtain ⟨rest', hrepository, -⟩ :
        ∃ rest', repository = name ++ ':' :: port ++ '/' :: rest' ∧ rest = rest' ++ ':' :: tag :=
      exists_of_append_eq hpath (by simp [hslash])
    exact absurd (by simp [hrepository]) hcolon

/-- The host of the path with the new tag is that of the path, so what is read behind it decides. -/
theorem parse_render_of_parseAt? {result : Image} (h : parse path = .ok image)
    (hid : image.id = none) (htag : tag ≠ []) (hslash : '/' ∉ tag)
    (hread : ∀ host rest, parseAt? host rest = some image →
      parseAt? host (part image.owner (· ++ ['/']) ++ image.repository ++ ':' :: tag) =
        some result) :
    parse ({ image with tag := some tag } : Image).render = .ok result := by
  rw [render_tagged_of_id_none hid htag]
  rcases parse_eq_ok_iff.mp h with ⟨⟨name, port⟩, rest, hhost, hrest⟩ | ⟨hnone, hat⟩
  · obtain ⟨rfl, hname⟩ := takeHost?_eq_some_iff.mp hhost
    refine parse_eq_ok_iff.mpr (.inl ⟨(name, port), _, takeHost?_eq_some_iff.mpr ⟨?_, hname⟩,
      hread _ _ hrest⟩)
    obtain ⟨hne, -, hport, -⟩ := hname
    have hregistry : image.registry = some name ∧ image.port = some port := by
      obtain ⟨owner, target, rfl, -⟩ := parseAt?_target hrest
      cases target <;> simp [ofParts]
    simp [front, hregistry.1, hregistry.2, part_some hne, part_some hport]
  · have hfront : image.front = part image.owner (· ++ ['/']) := by
      obtain ⟨owner, target, rfl, -⟩ := parseAt?_target hat
      cases target <;> simp [front, ofParts, part]
    rw [hfront]
    refine parse_eq_ok_iff.mpr (.inr ⟨?_, hread _ _ hat⟩)
    rintro ⟨name, port⟩ rest hhost
    obtain ⟨rest', target, hhost', htarget⟩ := exists_takeHost?_of_tagged hat hid hslash hhost
    have hrest := hnone _ _ hhost'
    simp [parseAt?, htarget] at hrest

theorem parse_render_dangling {segment : Text} (h : parse path = .ok image)
    (hid : image.id = none) (howner : image.owner = none) (hne : segment ≠ [])
    (hno : '/' ∉ segment) (hrepository : image.repository = segment ++ ['/']) (htag : tag ≠ [])
    (hslash : '/' ∉ tag) :
    parse ({ image with tag := some tag } : Image).render =
      .ok { image with
        owner := some segment, repository := [], tag := none, id := some (':' :: tag) } :=
  parse_render_of_parseAt? h hid htag hslash fun _ _ hrest =>
    parseAt?_dangling hrest hid hne hno howner hrepository hslash

/-- The path with the new tag is read as the same reference with that tag, unless this makes an owner
of a lone segment. -/
theorem parse_render_tagged_iff (h : parse path = .ok image) (hid : image.id = none)
    (htag : tag ≠ []) (hslash : '/' ∉ tag) :
    parse ({ image with tag := some tag } : Image).render = .ok { image with tag := some tag } ↔
      ¬ image.Dangling := by
  constructor
  · rintro hread ⟨howner, segment, hne, hno, hrepository⟩
    rw [parse_render_dangling h hid howner hne hno hrepository htag hslash] at hread
    injection hread with hread
    have hfalse := congrArg Image.tag hread
    cases hfalse
  · exact fun hdangling => parse_render_of_parseAt? h hid htag hslash fun _ _ hrest =>
      parseAt?_tagged hrest hid hdangling htag hslash

/-- With a tag behind the slash, the segment would have been read as the owner of an id. -/
theorem Dangling.tag_eq_none (hd : image.Dangling) (h : parseAt? host path = some image)
    (hid : image.id = none) : image.tag = none := by
  obtain ⟨howner, segment, hne, hno, hrepository⟩ := hd
  obtain ⟨rest, repository, old, htarget, hread⟩ := parseAt?_named h hid
  rcases hread with ⟨owner, -, rfl⟩ | ⟨rfl, rfl, hnone⟩
  · cases howner
  · obtain ⟨rfl, -, -, hold⟩ := Target.parse?_eq_repository_iff.mp htarget
    obtain rfl : repository = segment ++ ['/'] := hrepository
    cases old with
    | none => rfl
    | some old =>
      obtain ⟨hold, hslash⟩ := hold old rfl
      have hrest := hnone segment (':' :: old)
        (takeOwner?_eq_some_iff.mpr ⟨by simp [part_some hold], hne, hno⟩)
      exact absurd hrest (Target.parse?_colon hslash)

theorem Dangling.getLast?_path (hd : image.Dangling) (h : parse path = .ok image)
    (hid : image.id = none) : path.getLast? = some '/' := by
  have htag : image.tag = none := by
    rcases parse_eq_ok_iff.mp h with ⟨host, rest, -, hrest⟩ | ⟨-, hat⟩
    · exact hd.tag_eq_none hrest hid
    · exact hd.tag_eq_none hat hid
  obtain ⟨-, segment, -, -, hrepository⟩ := hd
  obtain ⟨hpath, -⟩ := path_of_id_none h hid
  simp [hpath, htag, hrepository, part]

/-- A path that does not end in a slash keeps its parts. -/
theorem parse_render_tagged (h : parse path = .ok image) (hid : image.id = none)
    (hend : path.getLast? ≠ some '/') (htag : tag ≠ []) (hslash : '/' ∉ tag) :
    parse ({ image with tag := some tag } : Image).render =
      .ok { image with tag := some tag } :=
  (parse_render_tagged_iff h hid htag hslash).mpr fun hd => hend (hd.getLast?_path h hid)

end Image

end Dockerfile
