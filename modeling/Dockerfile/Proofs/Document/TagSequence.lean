import Dockerfile.Proofs.Document.Base

/-!
# Tags one after another

The tag of the base image can be set in place, any number of times. Whatever the tags are, all
requests go to the same instruction, and only its first value ever changes.

* `Document.request`: retagging in place, where a document without the new tag stays as it is.
* `Document.SameButBase`: documents that differ at most in the first value of the declaration.
* `Document.sameButBase_request`, `Document.sameButBase_afterTags`: one request and any number of
  requests lead to such documents only.
* `Document.request_afterTags`: what a request does after any number of others.
-/

namespace Dockerfile

/-- The two instructions differ at most in their first values. -/
structure Instruction.SameButPath (i j : Instruction) : Prop where
  fields : j = { i with values := j.values }
  tail : j.values.tail = i.values.tail
  length : j.values.length = i.values.length

theorem Instruction.SameButPath.refl (i : Instruction) : i.SameButPath i := ⟨rfl, rfl, rfl⟩

theorem Instruction.SameButPath.trans {i j k : Instruction} (h : i.SameButPath j)
    (h' : j.SameButPath k) : i.SameButPath k := by
  refine ⟨?_, h'.tail.trans h.tail, h'.length.trans h.length⟩
  rw [h'.fields, h.fields]

theorem Instruction.sameButPath_withImagePath {i : Instruction} {before after : Text}
    (h : i.values.head? = some before) : i.SameButPath (i.withImagePath after) := by
  refine ⟨rfl, rfl, ?_⟩
  cases hvalues : i.values with
  | nil => simp [hvalues] at h
  | cons path rest => simp [withImagePath, hvalues]

namespace Document

variable {d e f : Document} {index k : Nat} {i j : Instruction} {tag : Text} {error : Error}

/-! ## One request -/

/-- A request to set the tag: its result, and the document it leaves behind, which is the one with
the new tag if there is one. -/
def request (d : Document) (tag : Text) : Except Error Unit × Document :=
  match (d.retag tag).value with
  | .ok d' => (.ok (), d')
  | .error e => (.error e, d)

theorem request_eq_error : (d.request tag).1 = .error error ↔ d.baseImage = .error error := by
  have herror : (d.retag tag).value = .error error ↔ d.baseImage = .error error := retag_eq_error
  rw [request, ← herror]
  cases (d.retag tag).value <;> simp

/-- A request that fails leaves the document as it is. -/
theorem request_of_ne_ok (h : (d.request tag).1 ≠ .ok ()) : (d.request tag).2 = d := by
  unfold request at h ⊢
  cases hresult : (d.retag tag).value with
  | error e => rfl
  | ok d' => simp [hresult] at h

/-- A request that succeeds replaces the first value of the declaration. -/
theorem request_of_ok (h : (d.request tag).1 = .ok ()) :
    ∃ index i path image, d.IsBase index ∧ d.instructions[index]? = some i ∧
      i.values.head? = some path ∧ Image.parse path = .ok image ∧
      (d.request tag).2 =
        d.replaceAt index (i.withImagePath ({ image with tag := some tag } : Image).render) := by
  unfold request at h ⊢
  cases hresult : (d.retag tag).value with
  | error e => simp [hresult] at h
  | ok d' => exact retag_eq_ok.mp hresult

/-! ## Any number of requests -/

/-- The second document is the first one, with at most another first value of the instruction with
this index. -/
def SameButPath (index : Nat) (d e : Document) : Prop :=
  ∃ i j, d.instructions[index]? = some i ∧ i.SameButPath j ∧ e = d.replaceAt index j

theorem getElem?_replaceAt_self (hi : d.instructions[index]? = some i) :
    (d.replaceAt index j).instructions[index]? = some j := by
  obtain ⟨hlt, -⟩ := List.getElem?_eq_some_iff.mp hi
  exact List.getElem?_set_self hlt

theorem SameButPath.trans (h : SameButPath index d e) (h' : SameButPath index e f) :
    SameButPath index d f := by
  obtain ⟨i, j, hi, hij, rfl⟩ := h
  obtain ⟨j', k, hj, hjk, rfl⟩ := h'
  rw [getElem?_replaceAt_self hi] at hj
  cases hj
  exact ⟨i, k, hi, hij.trans hjk, by simp [replaceAt]⟩

theorem SameButPath.isFrom_iff (h : SameButPath index d e) : e.IsFrom k ↔ d.IsFrom k := by
  obtain ⟨i, j, hi, hij, rfl⟩ := h
  have hname : j.name = i.name := by rw [hij.fields]
  unfold IsFrom
  by_cases hk : index = k
  · subst hk
    simp [getElem?_replaceAt_self hi, hi, hname]
  · rw [replaceAt, List.getElem?_set_ne hk]

/-- The base image is what its new path says. -/
theorem baseImage_replaceAt {path : Text} (hindex : d.IsBase index)
    (hi : d.instructions[index]? = some i) (hhead : i.values.head? = some path) (after : Text) :
    (d.replaceAt index (i.withImagePath after)).baseImage = Image.parse after := by
  have hsame : SameButPath index d (d.replaceAt index (i.withImagePath after)) :=
    ⟨i, _, hi, Instruction.sameButPath_withImagePath hhead, rfl⟩
  have hbase := base_eq_ok.mpr
    ⟨hindex.congr fun k => hsame.isFrom_iff, getElem?_replaceAt_self hi⟩
  unfold baseImage
  rw [hbase]
  rfl

/-- The second document is the first one, with at most another first value of the declaration of
the base image. -/
def SameButBase (d e : Document) : Prop := e = d ∨ ∃ index, d.IsBase index ∧ SameButPath index d e

theorem SameButBase.isBase_iff (h : SameButBase d e) : e.IsBase index ↔ d.IsBase index := by
  rcases h with rfl | ⟨k, -, hk⟩
  · exact Iff.rfl
  · exact ⟨fun hindex => hindex.congr fun m => hk.isFrom_iff.symm,
      fun hindex => hindex.congr fun m => hk.isFrom_iff⟩

theorem SameButBase.trans (h : SameButBase d e) (h' : SameButBase e f) : SameButBase d f := by
  rcases h' with rfl | ⟨k, hk, hkef⟩
  · exact h
  · have hdk : d.IsBase k := h.isBase_iff.mp hk
    rcases h with rfl | ⟨index, hindex, hde⟩
    · exact .inr ⟨k, hdk, hkef⟩
    · obtain rfl := hindex.unique hdk
      exact .inr ⟨index, hindex, hde.trans hkef⟩

/-- One request changes at most the first value of the declaration. -/
theorem sameButBase_request (d : Document) (tag : Text) : SameButBase d (d.request tag).2 := by
  by_cases h : (d.request tag).1 = .ok ()
  · obtain ⟨index, i, path, image, hindex, hi, hhead, -, hd⟩ := request_of_ok h
    exact .inr ⟨index, hindex, i, _, hi, Instruction.sameButPath_withImagePath hhead, hd⟩
  · exact .inl (request_of_ne_ok h)

/-- The document after requests to set these tags, one after another. -/
def afterTags (d : Document) (tags : List Text) : Document :=
  tags.foldl (fun d tag => (d.request tag).2) d

theorem sameButBase_afterTags (d : Document) (tags : List Text) :
    SameButBase d (d.afterTags tags) := by
  induction tags generalizing d with
  | nil => exact .inl rfl
  | cons tag tags ih => exact (sameButBase_request d tag).trans (ih _)

/-- After any number of requests the base image is still declared by the same instruction, and the
document differs from the first one at most in its first value. The next request fails exactly if
the image cannot be read, for the reason that reading it gives, and leaves the document as it is.
Otherwise it puts the image with the tag in the place of the first value. -/
theorem request_afterTags {result : Except Error Unit} {tags : List Text}
    (he : d.afterTags tags = e) (hrequest : e.request tag = (result, f)) :
    (∀ index, e.IsBase index ↔ d.IsBase index) ∧ SameButBase d e ∧
      (∀ error, result = .error error ↔ e.baseImage = .error error) ∧
      ((∃ detail, result = .error (.notFound detail)) ↔ ∀ index, ¬ d.IsBase index) ∧
      ((∃ detail, result = .error (.missingValue detail)) ↔
        ∃ index i, d.IsBase index ∧ e.instructions[index]? = some i ∧ i.values = []) ∧
      ((∃ detail, result = .error (.badImage detail)) ↔
        ∃ index i, d.IsBase index ∧ e.instructions[index]? = some i ∧
          ∃ path error, i.values.head? = some path ∧ Image.parse path = .error error) ∧
      (result ≠ .ok () → f = e) ∧
      (result = .ok () → ∃ index i path image, d.IsBase index ∧ e.instructions[index]? = some i ∧
        i.values.head? = some path ∧ Image.parse path = .ok image ∧
        f = e.replaceAt index (i.withImagePath ({ image with tag := some tag } : Image).render)) := by
  have hsame : SameButBase d e := he ▸ sameButBase_afterTags d tags
  have hbase (index : Nat) : e.IsBase index ↔ d.IsBase index := hsame.isBase_iff
  obtain ⟨rfl, rfl⟩ : (e.request tag).1 = result ∧ (e.request tag).2 = f := by simp [hrequest]
  refine ⟨hbase, hsame, fun _ => request_eq_error, ?_, ?_, ?_, request_of_ne_ok, fun h => ?_⟩
  all_goals simp only [request_eq_error, ← hbase]
  · exact baseImage_eq_notFound
  · exact baseImage_eq_missingValue
  · exact baseImage_eq_badImage
  · exact request_of_ok h

/-- A first `FROM`, a stage that is not the last, and a declaration in small letters. -/
def stages : Document where
  instructions :=
    [{ name := "FROM".toList, values := ["x".toList], first := 1, last := 1 },
     { name := "FROM".toList, first := 2, last := 2 },
     { name := "from".toList, values := ["a/b".toList, "AS".toList, "s".toList], first := 3,
       last := 3 }]

/-- A slash in a tag goes through once, and makes the next request fail. -/
theorem request_afterTags_stages :
    let e := stages.afterTags ["1".toList, "c/d".toList]
    e.request "2".toList = (.error (.mismatchedImage "a/b:c/d".toList), e) ∧
      SameButBase stages e ∧
      ∃ index i, stages.IsBase index ∧ e.instructions[index]? = some i ∧
        ∃ path error, i.values.head? = some path ∧ Image.parse path = .error error := by
  have h : (stages.afterTags ["1".toList, "c/d".toList]).request "2".toList =
      (.error (.mismatchedImage "a/b:c/d".toList),
        stages.afterTags ["1".toList, "c/d".toList]) := rfl
  obtain ⟨-, hsame, -, -, -, hbad, -⟩ := request_afterTags rfl h
  exact ⟨h, hsame, hbad.mp ⟨_, rfl⟩⟩

end Document

end Dockerfile
