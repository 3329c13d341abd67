import Dockerfile.Proofs.Document.TagSequence
import Dockerfile.Proofs.Image.Tag

/-!
# The last tag counts

A tag is read back from the path that it was written into, so the next one takes its place. The
exception are references that end in a lone segment and a slash: with a tag behind the slash, the
segment is the owner of an id, and an id has no tag.

* `Document.baseImage_request`: the base image after a request.
* `Document.request_request`, `Document.request_of_afterTags`: a request has the same effect after
  other ones.
* `Document.afterTags_eq_last`: when the new tag is read back, and that only the last one counts
  then.
-/

namespace Dockerfile.Document

variable {d : Document} {image : Image} {t tag : Text} {tags : List Text}

/-! ## One request -/

/-- If the base image can be read, requests succeed, and all of them in the same place. -/
theorem exists_request_eq (h : d.baseImage = .ok image) :
    ∃ index i path, d.IsBase index ∧ d.instructions[index]? = some i ∧
      i.values.head? = some path ∧ Image.parse path = .ok image ∧
      ∀ tag, d.request tag = (.ok (), d.replaceAt index
        (i.withImagePath ({ image with tag := some tag } : Image).render)) := by
  obtain ⟨index, i, path, hindex, hi, hhead, himage⟩ := baseImage_eq_ok.mp h
  refine ⟨index, i, path, hindex, hi, hhead, himage, fun tag => ?_⟩
  rw [request, retag_eq_ok.mpr ⟨index, i, path, image, hindex, hi, hhead, himage, rfl⟩]

theorem request_eq_ok (h : d.baseImage = .ok image) (tag : Text) : (d.request tag).1 = .ok () := by
  obtain ⟨index, i, path, -, -, -, -, hrequest⟩ := exists_request_eq h
  rw [hrequest]

theorem baseImage_request (h : d.baseImage = .ok image) (tag : Text) :
    (d.request tag).2.baseImage = Image.parse ({ image with tag := some tag } : Image).render := by
  obtain ⟨index, i, path, hindex, hi, hhead, -, hrequest⟩ := exists_request_eq h
  rw [hrequest]
  exact baseImage_replaceAt hindex hi hhead _

theorem baseImage_request_iff (h : d.baseImage = .ok image) (hid : image.id = none)
    (htag : tag ≠ []) (hslash : '/' ∉ tag) :
    (d.request tag).2.baseImage = .ok { image with tag := some tag } ↔ ¬ image.Dangling := by
  obtain ⟨index, i, path, -, -, -, himage, -⟩ := exists_request_eq h
  rw [baseImage_request h, Image.parse_render_tagged_iff himage hid htag hslash]

/-! ## One after another -/

/-- A tag that is read back gives way to the next one. -/
theorem request_request (h : d.baseImage = .ok image)
    (hread : (d.request t).2.baseImage = .ok { image with tag := some t }) (tag : Text) :
    (d.request t).2.request tag = d.request tag := by
  obtain ⟨index, i, path, hindex, hi, hhead, -, hrequest⟩ := exists_request_eq h
  obtain ⟨k, j, -, hk, hj, -, -, hnext⟩ := exists_request_eq hread
  obtain rfl : index = k :=
    ((sameButBase_request d t).isBase_iff.mpr hindex).unique hk
  rw [hrequest t] at hj
  obtain rfl : i.withImagePath ({ image with tag := some t } : Image).render = j :=
    Option.some.inj ((getElem?_replaceAt_self hi).symm.trans hj)
  rw [hnext, hrequest tag, hrequest t]
  simp [replaceAt, Instruction.withImagePath]

theorem request_of_afterTags (h : d.baseImage = .ok image) (hid : image.id = none)
    (hdangling : ¬ image.Dangling) (htags : ∀ t ∈ tags, t ≠ [] ∧ '/' ∉ t) (tag : Text) :
    (d.afterTags tags).request tag = d.request tag := by
  induction tags generalizing d image with
  | nil => rfl
  | cons t tags ih =>
    obtain ⟨⟨hne, hslash⟩, htags⟩ := List.forall_mem_cons.mp htags
    have hread := (baseImage_request_iff h hid hne hslash).mpr hdangling
    have hrest : ((d.request t).2.afterTags tags).request tag = (d.request t).2.request tag :=
      ih hread hid hdangling htags
    exact hrest.trans (request_request h hread tag)

/-- The base image with a new tag is read as the same reference with that tag, unless this makes an
owner of a lone segment. Outside of this exception, after any number of requests the document is the
one that the last of them leads to alone. -/
theorem afterTags_eq_last (h : d.baseImage = .ok image) (hid : image.id = none) :
    (∀ tag, tag ≠ [] → '/' ∉ tag → (d.request tag).1 = .ok () ∧
      ((d.request tag).2.baseImage = .ok { image with tag := some tag } ↔ ¬ image.Dangling)) ∧
    (¬ image.Dangling → ∀ tags tag, (∀ t ∈ tags, t ≠ [] ∧ '/' ∉ t) →
      d.afterTags (tags ++ [tag]) = d.afterTags [tag]) := by
  refine ⟨fun tag htag hslash =>
    ⟨request_eq_ok h tag, baseImage_request_iff h hid htag hslash⟩, ?_⟩
  intro hdangling tags tag htags
  calc d.afterTags (tags ++ [tag])
      = ((d.afterTags tags).request tag).2 := by rw [afterTags, List.foldl_append]; rfl
    _ = (d.request tag).2 := by rw [request_of_afterTags h hid hdangling htags]
    _ = d.afterTags [tag] := rfl

/-- A declaration with a host and no owner, so that the path has two places for a colon. -/
def hosted : Document where
  instructions :=
    [{ name := "FROM".toList, values := ["a/".toList] },
     { name := "From".toList, values := ["h:80/r".toList, "AS".toList, "s".toList] }]

/-- A declaration with a lone segment and a slash behind the host. -/
def slashed : Document where
  instructions :=
    [{ name := "FROM".toList, values := ["a".toList] },
     { name := "FROM".toList, values := ["h:80/r/".toList] }]

/-- Tags with colons, or that look like ports, are no different. -/
theorem afterTags_eq_last_hosted :
    let image : Image :=
      { registry := some "h".toList, port := some "80".toList, repository := "r".toList }
    (hosted.request "443".toList).2.baseImage = .ok { image with tag := some "443".toList } ∧
      hosted.afterTags ["443".toList, "x:5".toList, "2".toList] = hosted.afterTags ["2".toList] ∧
      (slashed.request "443".toList).1 = .ok () ∧
      (slashed.request "443".toList).2.baseImage ≠
        .ok { image with repository := "r/".toList, tag := some "443".toList } := by
  intro image
  have h : hosted.baseImage = .ok image := by decide +kernel
  have h' : slashed.baseImage = .ok { image with repository := "r/".toList } := by decide +kernel
  have hdangling : ¬ image.Dangling := by
    rintro ⟨-, segment, hne, -, hrepository⟩
    have hlast := congrArg List.getLast? hrepository
    simp [image] at hlast
  obtain ⟨hread, hlast⟩ := afterTags_eq_last h rfl
  obtain ⟨hread', -⟩ := afterTags_eq_last h' rfl
  obtain ⟨hok, hother⟩ := hread' "443".toList (by decide) (by decide)
  refine ⟨(hread _ (by decide) (by decide)).2.mpr hdangling,
    hlast hdangling ["443".toList, "x:5".toList] _ (by decide), hok, fun hsame => ?_⟩
  exact hother.mp hsame ⟨rfl, "r".toList, by decide, by decide, rfl⟩

end Dockerfile.Document
