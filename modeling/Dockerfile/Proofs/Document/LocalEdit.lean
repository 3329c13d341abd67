import Dockerfile.Proofs.Document.Overflow
import Dockerfile.Proofs.Document.TagSequence
import Dockerfile.Proofs.Image.Tag

/-!
# A new tag in the written text

The line cursor sees an instruction only through its source lines and its line feeds. A path without
line feeds keeps both when it gets another tag, so the two texts agree outside the instruction,
wherever the instructions stand and whatever a build does with lines that do not fit in 64 bits.

* `Image.mem_of_mem_render_tagged`: the characters of a path with a new tag.
* `Instruction.exists_render_withImagePath`: the first value stands in the text of an instruction as
  it is.
* `Document.text_retag`: the text of a document before and after a new tag.
-/

namespace Dockerfile

/-- A new tag brings its own characters and perhaps a colon into the path. -/
theorem Image.mem_of_mem_render_tagged {path tag : Text} {image : Image} {c : Char}
    (h : parse path = .ok image) (hc : c ∈ ({ image with tag := some tag } : Image).render) :
    c ∈ path ∨ c = ':' ∨ c ∈ tag := by
  cases hid : image.id with
  | none =>
    obtain ⟨hpath, -⟩ := path_of_id_none h hid
    have hid' : ({ image with tag := some tag } : Image).id = none := hid
    rw [render_of_id_none hid'] at hc
    rcases List.mem_append.mp hc with hc | hc
    · left
      rw [hpath]
      exact List.mem_append_left _ hc
    · right
      cases tag with
      | nil => cases hc
      | cons t tag => exact List.mem_cons.mp hc
  | some id =>
    obtain ⟨hpath, hne, -, -⟩ := path_of_id_some h hid
    have hid' : ({ image with tag := some tag } : Image).id = some id := hid
    rw [render_of_id hne hid'] at hc
    left
    rw [hpath]
    exact List.mem_append_right _ hc

namespace Instruction

variable {i : Instruction} {path after : Text}

theorem withImagePath_self (h : i.values.head? = some path) : i.withImagePath path = i := by
  cases i with
  | mk name flags values first last source =>
    cases values with
    | nil => cases h
    | cons value values =>
      cases h
      rfl

/-- The first value stands in the text of the instruction as it is. -/
theorem exists_render_withImagePath (i : Instruction) :
    ∃ start rest, ∀ path, (i.withImagePath path).render = start ++ path ++ rest := by
  let start := Text.upper i.name ++ i.flags.flatMap (' ' :: ·)
  have hrender (path : Text) :
      (i.withImagePath path).render = start ++ (i.withImagePath path).arguments := rfl
  by_cases hentry : i.keyword? = some .entrypoint
  · refine ⟨start ++ " [\"".toList,
      '"' :: (if i.values.tail = [] then [']']
        else ", ".toList ++ Text.joinWith ", ".toList (i.values.tail.map quoted) ++ [']']),
      fun path => ?_⟩
    have harguments : (i.withImagePath path).arguments =
        " [".toList ++ Text.joinWith ", ".toList ((path :: i.values.tail).map quoted) ++ [']'] := by
      have hkeyword : (i.withImagePath path).keyword? = some .entrypoint := hentry
      rw [arguments, if_neg (by simp [withImagePath]), if_pos hkeyword]
      rfl
    rw [hrender, harguments, List.map_cons]
    by_cases hrest : i.values.tail = []
    · simp [hrest, Text.joinWith, quoted]
    · have hquoted : i.values.tail.map quoted ≠ [] := fun h => hrest (List.map_eq_nil_iff.mp h)
      rw [if_neg hrest, Text.joinWith_cons hquoted]
      simp [quoted]
  · refine ⟨start ++ [' '], i.values.tail.flatMap (' ' :: ·), fun path => ?_⟩
    have harguments : (i.withImagePath path).arguments =
        (path :: i.values.tail).flatMap (' ' :: ·) := by
      have hkeyword : (i.withImagePath path).keyword? ≠ some .entrypoint := hentry
      rw [arguments, if_neg (by simp [withImagePath]), if_neg hkeyword]
      rfl
    rw [hrender, harguments]
    simp

theorem lineFeeds_render_withImagePath (hhead : i.values.head? = some path) (hpath : '\n' ∉ path)
    (hafter : '\n' ∉ after) :
    Text.lineFeeds (i.withImagePath after).render = Text.lineFeeds i.render := by
  obtain ⟨start, rest, hrender⟩ := i.exists_render_withImagePath
  have hsame := hrender path
  rw [withImagePath_self hhead] at hsame
  simp only [hsame, hrender, Text.lineFeeds_append, Text.lineFeeds_eq_zero_iff.mpr hpath,
    Text.lineFeeds_eq_zero_iff.mpr hafter]

end Instruction

namespace Document

variable {d d' : Document} {index : Nat} {i : Instruction} {path tag : Text}

theorem replaceAt_self (hi : d.instructions[index]? = some i) : d.replaceAt index i = d := by
  obtain ⟨hlt, rfl⟩ := List.getElem?_eq_some_iff.mp hi
  simp [replaceAt]

/-- A request for a tag without line feeds that succeeds on a path without line feeds changes the
written text inside the declaration only: before and after it, the same texts stand around the
declaration, first the instructions above it and the line feeds below these. A build that checks its
line numbers may write no text, and then it writes none for either document. -/
theorem text_retag (h : (d.retag tag).value = .ok d') (hbase : d.base = .ok (index, i))
    (hpath : i.imagePath = .ok path) (hfeed : '\n' ∉ path) (htag : '\n' ∉ tag) :
    ∃ j, d' = d.replaceAt index j ∧ i.SameButPath j ∧ ∀ overflow options,
      (overflow = .stops ∧ d.text? overflow options = none ∧ d'.text? overflow options = none) ∨
      ∃ above gap rest,
        (Document.mk (d.instructions.take index)).text? overflow options = some above ∧
        let start := above ++ List.replicate gap '\n'
        d.text? overflow options = some (start ++ i.render ++ rest) ∧
          d'.text? overflow options = some (start ++ j.render ++ rest) := by
  obtain ⟨k, i', path', image, hk, hi, hhead, himage, rfl⟩ := retag_eq_ok.mp h
  obtain ⟨hindex, hi'⟩ := base_eq_ok.mp hbase
  obtain rfl := hindex.unique hk
  cases hi.symm.trans hi'
  cases hhead.symm.trans (Instruction.imagePath_eq_ok.mp hpath)
  have hafter : '\n' ∉ ({ image with tag := some tag } : Image).render := fun hmem => by
    rcases Image.mem_of_mem_render_tagged himage hmem with hmem | hmem | hmem
    · exact hfeed hmem
    · cases hmem
    · exact htag hmem
  have hfeeds := Instruction.lineFeeds_render_withImagePath hhead hfeed hafter
  refine ⟨_, rfl, Instruction.sameButPath_withImagePath hhead, fun overflow options => ?_⟩
  have hself : (d.replaceAt index i).text? overflow options = d.text? overflow options := by
    rw [replaceAt_self hi]
  rcases Layout.exists_render?_set overflow options.continuation 1 hi with
    hnone | ⟨above, gap, rest, habove, hset⟩
  · have hd : d.text? overflow options = none := hself.symm.trans (hnone i rfl rfl rfl)
    exact .inl ⟨(text?_eq_none_iff.mp hd).1, hd, hnone _ rfl rfl hfeeds⟩
  · have hd := hself.symm.trans (hset i rfl rfl rfl)
    exact .inr ⟨above, gap, rest, habove, hd, hset _ rfl rfl hfeeds⟩

/-- Instructions on lines in disorder. The declaration has a line feed behind its first value, and
leaves no line numbers for the instruction below it. -/
def looseStages : Document where
  instructions :=
    [{ name := "RUN".toList, values := ["<<E\na\nE".toList], first := 9, last := 2 },
     { name := "from".toList, values := ["reg:5000/o/r".toList, "AS\ns".toList], first := 4,
       last := UInt64.size - 1 },
     { name := "USER".toList, values := ["u".toList], first := 9, last := 9 }]

/-- One build writes neither document, and the other one writes the last instruction below a gap. -/
theorem text_retag_looseStages :
    ∃ d' i j, (looseStages.retag "2".toList).value = .ok d' ∧ looseStages.base = .ok (1, i) ∧
      d' = looseStages.replaceAt 1 j ∧ i.SameButPath j ∧
      (looseStages.text? .stops {} = none ∧ d'.text? .stops {} = none) ∧
      ∃ above gap rest,
        (Document.mk (looseStages.instructions.take 1)).text? .wraps {} = some above ∧
        let start := above ++ List.replicate gap '\n'
        looseStages.text? .wraps {} = some (start ++ i.render ++ rest) ∧
          d'.text? .wraps {} = some (start ++ j.render ++ rest) := by
  let i := looseStages.instructions[1]
  let d' := looseStages.replaceAt 1 (i.withImagePath "reg:5000/o/r:2".toList)
  have h : (looseStages.retag "2".toList).value = .ok d' := by decide +kernel
  have hbase : looseStages.base = .ok (1, i) := by decide +kernel
  have hpath : i.imagePath = .ok "reg:5000/o/r".toList := by decide +kernel
  obtain ⟨j, hd', hsame, htext⟩ := text_retag h hbase hpath (by decide) (by decide)
  have hstops : looseStages.text? .stops {} = none := by decide +kernel
  refine ⟨d', i, j, h, hbase, hd', hsame, ?_, (htext .wraps {}).resolve_left fun hnone => ?_⟩
  · rcases htext .stops {} with ⟨-, hnone⟩ | ⟨_, _, _, -, hsome, -⟩
    · exact hnone
    · cases hstops.symm.trans hsome
  · cases hnone.1

end Document

end Dockerfile
