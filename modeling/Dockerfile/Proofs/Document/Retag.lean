import Dockerfile.Proofs.Document.RoundTrip
import Dockerfile.Proofs.Document.TagSequence
import Dockerfile.Proofs.Image.Tag
import Dockerfile.Proofs.Statement.ImagePath

/-!
# Giving the base image a tag

* `Document.retag_tagChange_iff`: what a new tag changes in the first value of the declaration.
* `Document.parse_withImagePath`: a document with another image path is read as it was written.
* `Document.parse_text_retag`: a text with a new tag, once written and read, declares the same image
  with that tag, and nothing else is different.
-/

namespace Dockerfile

namespace Document

open Text Statement Argument

variable {text path tag : Text} {d d' e : Document} {index : Nat} {i : Instruction} {s : Statement}
  {ss : List Statement} {image : Image}

/-! ## The change of the first value -/

/-- A request that succeeds puts another path in the place of the first value of the declaration.
The new path differs in its tag only, and nothing before the tag is lost, exactly if the reference
has no id or nothing stands before the id. Otherwise what stands before the id is lost. -/
theorem retag_tagChange_iff (htag : tag ≠ []) (h : (d.retag tag).value = .ok d') :
    ∃ index i before image after, d.IsBase index ∧ d.instructions[index]? = some i ∧
      i.values.head? = some before ∧ Image.parse before = .ok image ∧
      d' = d.replaceAt index (i.withImagePath after) ∧
      (Image.TagChange tag before after ∧ image.front ++ image.repository <+: after ↔
        image.id = none ∨ image.registry = none ∧ image.owner = none) ∧
      (image.id ≠ none → before = image.front ++ after) := by
  obtain ⟨index, i, before, image, hindex, hi, hhead, himage, hd'⟩ := retag_eq_ok.mp h
  exact ⟨index, i, before, image, _, hindex, hi, hhead, himage, hd',
    Image.tagChange_render_iff himage htag rfl⟩

/-- A declaration with an id behind an owner. -/
def idBehindOwner : Document where
  instructions :=
    [{ name := "ARG".toList }, { name := "FROM".toList, values := ["team/app:".toList] }]

theorem retag_tagChange_iff_idBehindOwner :
    let tag := "1.0".toList
    let d' := idBehindOwner.replaceAt 1 { name := "FROM".toList, values := ["app:".toList] }
    (idBehindOwner.retag tag).value = .ok d' ∧
      ∃ index i before image after, idBehindOwner.IsBase index ∧
        idBehindOwner.instructions[index]? = some i ∧ i.values.head? = some before ∧
        Image.parse before = .ok image ∧
        d' = idBehindOwner.replaceAt index (i.withImagePath after) ∧
        (Image.TagChange tag before after ∧ image.front ++ image.repository <+: after ↔
          image.id = none ∨ image.registry = none ∧ image.owner = none) ∧
        (image.id ≠ none → before = image.front ++ after) := by
  intro tag d'
  have h : (idBehindOwner.retag tag).value = .ok d' := by decide +kernel
  exact ⟨h, retag_tagChange_iff (by decide) h⟩

/-- Not every request changes the tag only: `team/app:` gives way to `app:`. -/
theorem exists_retag_not_tagChange :
    ¬ ∀ (d d' : Document) (tag : Text), tag ≠ [] → (d.retag tag).value = .ok d' →
      ∀ index i j before after, d.base = .ok (index, i) → d'.instructions[index]? = some j →
        i.imagePath = .ok before → j.imagePath = .ok after → Image.TagChange tag before after := by
  intro h
  let j : Instruction := { name := "FROM".toList, values := ["app:".toList] }
  have hchange : Image.TagChange "1.0".toList "team/app:".toList "app:".toList :=
    h idBehindOwner (idBehindOwner.replaceAt 1 j) "1.0".toList (by decide) (by decide +kernel)
      1 _ j _ _ rfl rfl rfl rfl
  rcases hchange with hsame | ⟨stem, -, hstem⟩
  · exact absurd hsame (by decide)
  · have hlast := congrArg List.getLast? hstem
    simp at hlast

/-- The image of another path is the base image. -/
theorem baseImage_withImagePath {after : Text} (hindex : d.IsBase index)
    (hi : d.instructions[index]? = some i) (hhead : i.values.head? = some path)
    (hafter : Image.parse after = .ok image) :
    (d.replaceAt index (i.withImagePath after)).baseImage = .ok image :=
  (baseImage_replaceAt hindex hi hhead after).trans hafter

/-! ## Reading what was written -/

/-- The case of the keywords does not matter for the base image. -/
theorem baseImage_of_fields (hnames : ∀ i ∈ d.instructions, isAlphanum i.name)
    (hfields : e.instructions.map (fun i => (i.name, i.flags, i.values)) =
      d.instructions.map fun i => (upper i.name, i.flags, i.values))
    (h : d.baseImage = .ok image) : e.baseImage = .ok image := by
  have hget (k : Nat) : e.instructions[k]?.map (fun i => (i.name, i.flags, i.values)) =
      d.instructions[k]?.map fun i => (upper i.name, i.flags, i.values) := by
    rw [← List.getElem?_map, hfields, List.getElem?_map]
  have hfrom (k : Nat) : e.IsFrom k ↔ d.IsFrom k := by
    have hk := hget k
    unfold IsFrom
    cases hd : d.instructions[k]? with
    | none =>
      rw [hd, Option.map_none, Option.map_eq_none_iff] at hk
      simp [hk]
    | some i =>
      rw [hd, Option.map_some, Option.map_eq_some_iff] at hk
      obtain ⟨j, hj, hfields⟩ := hk
      obtain ⟨hname, -⟩ := Prod.mk.inj hfields
      have hletters := foldCase_upper (hnames i (List.mem_of_getElem? hd))
      simp [hj, hname, sameLetters_iff, hletters]
  obtain ⟨index, i, path, hindex, hi, hhead, himage⟩ := baseImage_eq_ok.mp h
  have hk := hget index
  rw [hi, Option.map_some, Option.map_eq_some_iff] at hk
  obtain ⟨j, hj, hfields⟩ := hk
  have hvalues : j.values = i.values := congrArg (·.2.2) hfields
  exact baseImage_eq_ok.mpr ⟨index, j, path, hindex.congr hfrom, hj, by rw [hvalues, hhead], himage⟩

/-- The document of statements that are written on lines of their own is read as it was written. -/
theorem parse_of_writable (hd : d.instructions = ss.map toInstruction)
    (hfits : Layout.Fits 1 d.instructions) (hss : ∀ s ∈ ss, s.Writable) (hne : ss ≠ []) :
    ∃ d', (parse (d.text { continuation := .collapseToEnd })).value = .ok d' ∧
      d'.instructions.map (fun i => (i.name, i.flags, i.values)) =
        d.instructions.map fun i => (upper i.name, i.flags, i.values) := by
  have htext := text_eq_unlines_written hd hfits hss (.inl rfl)
  have hbelow : Below 0 ss := .of_fits (hd ▸ hfits)
  refine ⟨_, by rw [htext]; exact parse_written hss hbelow hne, ?_⟩
  rw [hd]
  exact fields_relocate hss

/-- With another image path in a `FROM`, the document is read as it was written. -/
theorem parse_withImagePath {before after : Text} (hd : d.instructions = ss.map toInstruction)
    (hfits : Layout.Fits 1 d.instructions) (hss : ∀ s ∈ ss, s.Writable) (hs : ss[index]? = some s)
    (hbefore : s.Declares before) (hafter : BareWord after) :
    let d' := d.replaceAt index (s.toInstruction.withImagePath after)
    ∃ e, (parse (d'.text { continuation := .collapseToEnd })).value = .ok e ∧
      e.instructions.map (fun i => (i.name, i.flags, i.values)) =
        d'.instructions.map fun i => (upper i.name, i.flags, i.values) := by
  intro d'
  let s' := s.withImagePath after
  let j := s.toInstruction.withImagePath after
  have hi : d.instructions[index]? = some s.toInstruction := by
    rw [hd, List.getElem?_map, hs]
    rfl
  -- The text of the statement changes, and not only the instruction that was read from it.
  have hset : (ss.set index s').map toInstruction = d.instructions.set index s'.toInstruction := by
    rw [hd, List.map_set]
  have hspanned : s'.toInstruction.Spanned :=
    hbefore.spanned_withImagePath hafter (hfits.spanned _ (List.mem_of_getElem? hi))
  have hfits' : Layout.Fits 1 ((ss.set index s').map toInstruction) := by
    rw [hset]
    exact hfits.set hi hspanned rfl rfl
  have hss' : ∀ t ∈ ss.set index s', t.Writable := fun t ht => by
    rcases List.mem_or_eq_of_mem_set ht with ht | rfl
    · exact hss t ht
    · exact hbefore.writable_withImagePath hafter
  have hne : ss.set index s' ≠ [] := by
    rw [ne_eq, List.set_eq_nil_iff]
    rintro rfl
    cases hs
  obtain ⟨e, hparse, hfields⟩ :=
    parse_of_writable (d := ⟨(ss.set index s').map toInstruction⟩) rfl hfits' hss' hne
  have htext : d'.text { continuation := .collapseToEnd } =
      (⟨(ss.set index s').map toInstruction⟩ : Document).text { continuation := .collapseToEnd } := by
    have hset' : (ss.set index s').map toInstruction = d'.instructions.set index s'.toInstruction := by
      rw [hset]
      exact (List.set_set _).symm
    show Layout.render _ _ _ = Layout.render _ _ _
    rw [hset', Layout.render_set (getElem?_replaceAt_self hi)
      (hbefore.render_withImagePath hafter) rfl rfl]
  refine ⟨e, by rw [htext]; exact hparse, hfields.trans ?_⟩
  show ((ss.set index s').map toInstruction).map _ = (d.instructions.set index j).map _
  rw [hset, List.map_set, List.map_set]
  obtain ⟨hname, hflags, hvalues⟩ := hbefore.fields_withImagePath hafter
  have hsame : (upper s'.name, s'.flags, s'.values) = (upper j.name, j.flags, j.values) := by
    rw [hname, hflags, hvalues, upper_upper hbefore.writable.plain.isAlphanum]
    rfl
  exact congrArg _ hsame

/-! ## Texts -/

/-- A plain tag leaves a plain path. -/
theorem bareWord_render_tagged (h : Image.parse path = .ok image) (hid : image.id = none)
    (hpath : BareWord path) (htag : tag ≠ []) (hbare : Bare tag)
    (hspace : ∀ c ∈ tag, isSpace c = false) :
    BareWord ({ image with tag := some tag } : Image).render := by
  obtain ⟨rfl, hrepository⟩ := Image.path_of_id_none h hid
  rw [Image.render_tagged_of_id_none hid htag]
  exact hpath.append (by simp [hrepository])
    (List.forall_mem_cons.mpr ⟨by decide, hbare⟩) (List.forall_mem_cons.mpr ⟨by decide, hspace⟩)

/-- The statement of the base image declares its path. -/
theorem declares_of_base (hd : d.instructions = ss.map toInstruction) (hss : ∀ s ∈ ss, s.Writable)
    (hbase : d.base = .ok (index, i)) (hpath : i.imagePath = .ok path) :
    ∃ s, ss[index]? = some s ∧ s.toInstruction = i ∧ s.Declares path := by
  obtain ⟨⟨-, ⟨j, hj, hfrom⟩, -⟩, hi⟩ := base_eq_ok.mp hbase
  rw [hi] at hj
  cases hj
  rw [hd, List.getElem?_map, Option.map_eq_some_iff] at hi
  obtain ⟨s, hs, rfl⟩ := hi
  exact ⟨s, hs, rfl, hss s (List.mem_of_getElem? hs),
    Keyword.ofName?_eq_some_iff.mpr (sameLetters_iff.mp hfrom),
    Instruction.imagePath_eq_ok.mp hpath⟩

/-- The base image of a text can be given a tag. The document is written so that it is read again,
with the same image but for its tag, and no other flag or value of an instruction changes. -/
theorem parse_text_retag (h : (parse text).value = .ok d) (hreturn : '\r' ∉ text)
    (hdirective : Escape.Undirected (lines text))
    (hentry : ∀ i ∈ d.instructions, i.keyword? ≠ some .entrypoint)
    (hclosed : (Phase.between.run defaultEscape 1 (lines text)).1 = .between)
    (hvalue : ∀ s ∈ (Phase.between.run defaultEscape 1 (lines text)).2,
      s.body ≠ [] → s.lineValues ≠ [])
    (hread : d.baseImage = .ok image) (hid : image.id = none)
    (hbase : d.base = .ok (index, i)) (hpath : i.imagePath = .ok path)
    (hhead : ∃ c ∈ path.head?, c.isAlphanum) (hbare : Bare path) (hend : path.getLast? ≠ some '/')
    (htag : tag ≠ []) (hspace : ∀ c ∈ tag, isSpace c = false) (hslash : '/' ∉ tag)
    (hbareTag : Bare tag) :
    ∃ d₁ d₂, (d.retag tag).value = .ok d₁ ∧
      (parse (d₁.text { continuation := .collapseToEnd })).value = .ok d₂ ∧
      d₂.baseImage = .ok { image with tag := some tag } ∧
      d₂.instructions.map (fun i => (i.name, i.flags, i.values)) =
        (d.instructions.set index
          (i.withImagePath ({ image with tag := some tag } : Image).render)).map
            fun i => (upper i.name, i.flags, i.values) := by
  obtain ⟨ss, -, -, hss, hd⟩ := writable_of_parse h hreturn hdirective hentry hclosed hvalue
  obtain ⟨s, hs, rfl, hdeclares⟩ := declares_of_base hd hss hbase hpath
  obtain ⟨hindex, hi⟩ := base_eq_ok.mp hbase
  have himage : Image.parse path = .ok image := by
    simpa [baseImage, hbase, hpath, bind, Except.bind] using hread
  have hword : BareWord path :=
    ⟨hbare, (hbare.isArgument_iff.mp hdeclares.isArgument).2, hhead⟩
  have hafter := bareWord_render_tagged himage hid hword htag hbareTag hspace
  obtain ⟨d₂, hparse, hfields⟩ :=
    parse_withImagePath hd (fits_of_parse h hentry) hss hs hdeclares hafter
  refine ⟨_, d₂, retag_eq_ok.mpr ⟨index, _, path, image, hindex, hi, hdeclares.head, himage, rfl⟩,
    hparse, baseImage_of_fields ?_ hfields ?_, hfields⟩
  · intro j hj
    rcases List.mem_or_eq_of_mem_set hj with hj | rfl
    · rw [hd] at hj
      obtain ⟨t, ht, rfl⟩ := List.mem_map.mp hj
      exact (hss t ht).plain.isAlphanum
    · exact hdeclares.writable.plain.isAlphanum
  · exact baseImage_withImagePath hindex hi hdeclares.head
      (Image.parse_render_tagged himage hid hend htag hslash)

/-- A text with two stages, of which the last is declared in small letters over two lines, and a
heredoc between them. -/
def stagedText : Text :=
  "ARG v\nFROM a AS b\nRUN c <<E\n x\nE\nfrom --platform=p \\\n reg:5000/o/r:1  AS s\n\nUSER u".toList

theorem parse_text_retag_stagedText :
    let image : Image :=
      { registry := some "reg".toList, port := some "5000".toList, owner := some "o".toList,
        repository := "r".toList, tag := some "1".toList }
    ∃ d d₁ d₂ i, (parse stagedText).value = .ok d ∧ d.base = .ok (3, i) ∧
      (d.retag "2.0".toList).value = .ok d₁ ∧
      (parse (d₁.text { continuation := .collapseToEnd })).value = .ok d₂ ∧
      d₂.baseImage = .ok { image with tag := some "2.0".toList } ∧
      d₂.instructions.map (fun i => (i.name, i.flags, i.values)) =
        (d.instructions.set 3 (i.withImagePath "reg:5000/o/r:2.0".toList)).map
          fun i => (upper i.name, i.flags, i.values) := by
  intro image
  let d := (parse stagedText).value.toOption.getD {}
  let i := d.instructions[3]?.getD { name := [] }
  have h : (parse stagedText).value = .ok d := by decide +kernel
  have hread : d.baseImage = .ok image := by decide +kernel
  have hbase : d.base = .ok (3, i) := by decide +kernel
  have hpath : i.imagePath = .ok "reg:5000/o/r:1".toList := by decide +kernel
  have htag : "2.0".toList ≠ [] := by decide
  have hspace : ∀ c ∈ "2.0".toList, isSpace c = false := by
    have hall : "2.0".toList.all (!isSpace ·) := by decide
    simpa using hall
  obtain ⟨d₁, d₂, hretag, hparse, hbaseImage, hfields⟩ := parse_text_retag h (by decide +kernel)
    (by decide +kernel) (by decide +kernel) (by decide +kernel) (by decide +kernel) hread rfl hbase
    hpath ⟨'r', rfl, by decide⟩ (by decide) (by decide) htag hspace (by decide) (by decide)
  exact ⟨d, d₁, d₂, i, h, hbase, hretag, hparse, hbaseImage, hfields⟩

end Document

end Dockerfile
