import Dockerfile.Document.Basic
import Dockerfile.Proofs.Image.Spelling

/-!
# The declaration of the base image

* `Document.IsFrom`, `Document.IsBase`: the `FROM` instructions, and the last of them behind the
  first instruction.
* `Document.base_eq_ok`, `Document.base_eq_error`: it is found if there is one.
* `Document.Outcome`, `Document.outcome`: what comes of reading its image, and of giving it a tag.
* `Document.baseImage_eq_ok`, `Document.retag_eq_ok`: when its image can be read, and given a tag.
* `Document.baseImage_eq_notFound`, `Document.baseImage_eq_missingValue`,
  `Document.baseImage_eq_badImage`: why its image cannot be read.
-/

namespace Dockerfile

theorem Instruction.imagePath_eq_ok {i : Instruction} {path : Text} :
    i.imagePath = .ok path ↔ i.values.head? = some path := by
  unfold imagePath
  split
  · rename_i hvalues
    simp [hvalues]
  · rename_i hvalues
    simp [hvalues]

theorem Instruction.imagePath_eq_error {i : Instruction} {e : Error} :
    i.imagePath = .error e ↔ i.values = [] ∧ e = .noBaseValue i.first := by
  unfold imagePath
  split
  · rename_i hvalues
    simp [hvalues, eq_comm]
  · rename_i hvalues
    simp [hvalues]

namespace Document

variable {d d' : Document} {index k : Nat} {i : Instruction} {tag path : Text} {image : Image}
  {e : Error}

/-! ## Finding it -/

section FindLast

variable {α : Type} {p : α → Bool} {l : List α} {a : α}

theorem findLast?_eq_none (h : findLast? p l = none) : ∀ (k : Nat), ∀ a ∈ l[k]?, p a = false := by
  induction l with
  | nil => simp
  | cons b l ih =>
    rw [findLast?] at h
    cases hl : findLast? p l with
    | some q =>
      rw [hl] at h
      cases h
    | none =>
      rintro (_ | k) a ha
      · cases ha
        simpa [hl] using h
      · exact ih hl k a ha

theorem findLast?_eq_some (h : findLast? p l = some (k, a)) :
    l[k]? = some a ∧ p a ∧ ∀ m > k, ∀ b ∈ l[m]?, p b = false := by
  induction l generalizing k with
  | nil => cases h
  | cons b l ih =>
    rw [findLast?] at h
    cases hl : findLast? p l with
    | some q =>
      rw [hl] at h
      cases h
      obtain ⟨ha, hp, hlast⟩ := ih hl
      refine ⟨ha, hp, ?_⟩
      rintro (_ | m) hm
      · cases hm
      · exact hlast m (Nat.lt_of_succ_lt_succ hm)
    | none =>
      rw [hl] at h
      obtain ⟨hp, rfl, rfl⟩ : p b = true ∧ 0 = k ∧ b = a := by simpa using h
      refine ⟨rfl, hp, ?_⟩
      rintro (_ | m) hm
      · cases hm
      · exact findLast?_eq_none hl m

end FindLast

/-- The instruction with this index is a `FROM`, in any ASCII case. -/
def IsFrom (d : Document) (index : Nat) : Prop :=
  ∃ i ∈ d.instructions[index]?, Text.sameLetters "FROM".toList i.name

/-- The last `FROM` has this index, and is not the first instruction. -/
structure IsBase (d : Document) (index : Nat) : Prop where
  pos : 1 ≤ index
  isFrom : d.IsFrom index
  last : ∀ k, d.IsFrom k → k ≤ index

theorem IsBase.unique (h : d.IsBase index) (hk : d.IsBase k) : index = k :=
  Nat.le_antisymm (hk.last index h.isFrom) (h.last k hk.isFrom)

/-- Only the names of the instructions decide. -/
theorem IsBase.congr (h : d.IsBase index) (hfrom : ∀ k, d'.IsFrom k ↔ d.IsFrom k) :
    d'.IsBase index :=
  ⟨h.pos, (hfrom index).mpr h.isFrom, fun k hk => h.last k ((hfrom k).mp hk)⟩

theorem isBase_of_findLast?
    (h : findLast? (·.hasKeyword (some .fromImage)) d.instructions.tail = some (k, i)) :
    d.IsBase (k + 1) ∧ d.instructions[k + 1]? = some i := by
  obtain ⟨hi, hfrom, hlast⟩ := findLast?_eq_some h
  simp only [List.getElem?_tail] at hi hlast
  refine ⟨⟨Nat.succ_pos k, ⟨i, hi, hfrom⟩, ?_⟩, hi⟩
  rintro (_ | m) ⟨j, hj, hfromj⟩
  · exact Nat.zero_le _
  · refine Nat.le_of_not_lt fun hm => ?_
    have hnot : Text.sameLetters "FROM".toList j.name = false :=
      hlast m (Nat.lt_of_succ_lt_succ hm) j hj
    rw [hfromj] at hnot
    cases hnot

theorem not_isBase_of_findLast?
    (h : findLast? (·.hasKeyword (some .fromImage)) d.instructions.tail = none) :
    ¬ d.IsBase index := by
  rintro ⟨hpos, ⟨i, hi, hfrom⟩, -⟩
  obtain ⟨m, rfl⟩ := Nat.exists_eq_succ_of_ne_zero (Nat.ne_of_gt hpos)
  have hnot : Text.sameLetters "FROM".toList i.name = false :=
    findLast?_eq_none h m i (by rwa [List.getElem?_tail])
  rw [hfrom] at hnot
  cases hnot

theorem base_eq_ok : d.base = .ok (index, i) ↔ d.IsBase index ∧ d.instructions[index]? = some i := by
  unfold base
  cases h : findLast? (·.hasKeyword (some .fromImage)) d.instructions.tail with
  | none =>
    refine iff_of_false (by simp) ?_
    rintro ⟨hbase, -⟩
    exact not_isBase_of_findLast? h hbase
  | some q =>
    obtain ⟨hbase, hi⟩ := isBase_of_findLast? h
    constructor
    · intro heq
      cases heq
      exact ⟨hbase, hi⟩
    · rintro ⟨hindex, hi'⟩
      obtain rfl := hbase.unique hindex
      rw [hi] at hi'
      cases hi'
      rfl

theorem base_eq_error : d.base = .error e ↔ (∀ index, ¬ d.IsBase index) ∧ e = .noBaseImage := by
  unfold base
  cases h : findLast? (·.hasKeyword (some .fromImage)) d.instructions.tail with
  | none => simp [not_isBase_of_findLast? h, eq_comm]
  | some q =>
    refine iff_of_false (by simp) ?_
    rintro ⟨hnone, -⟩
    exact hnone _ (isBase_of_findLast? h).1

/-! ## Reading and changing it -/

/-- What comes of reading the base image, and of giving it a tag. -/
inductive Outcome (d : Document) (tag : Text) : Except Error Image → Except Error Document → Prop
  /-- No base image is declared. -/
  | noBase : (∀ index, ¬ d.IsBase index) →
      Outcome d tag (.error .noBaseImage) (.error .noBaseImage)
  /-- The declaration has no values. -/
  | noValue {index : Nat} {i : Instruction} : d.IsBase index → d.instructions[index]? = some i →
      i.values = [] → Outcome d tag (.error (.noBaseValue i.first)) (.error (.noBaseValue i.first))
  /-- The first value is no image path. -/
  | badImage {index : Nat} {i : Instruction} {path : Text} {e : Error} : d.IsBase index →
      d.instructions[index]? = some i → i.values.head? = some path → Image.parse path = .error e →
      Outcome d tag (.error e) (.error e)
  /-- The first value is an image path, and gives way to one with the tag. -/
  | found {index : Nat} {i : Instruction} {path : Text} {image : Image} : d.IsBase index →
      d.instructions[index]? = some i → i.values.head? = some path → Image.parse path = .ok image →
      Outcome d tag (.ok image)
        (.ok (d.replaceAt index (i.withImagePath ({ image with tag := some tag } : Image).render)))

theorem outcome (d : Document) (tag : Text) : Outcome d tag d.baseImage (d.retag tag).value := by
  unfold baseImage retag
  cases hbase : d.base with
  | error e =>
    obtain ⟨hnone, rfl⟩ := base_eq_error.mp hbase
    exact .noBase hnone
  | ok q =>
    obtain ⟨index, i⟩ := q
    obtain ⟨hindex, hi⟩ := base_eq_ok.mp hbase
    simp only [bind, Except.bind]
    cases hpath : i.imagePath with
    | error e =>
      obtain ⟨hvalues, rfl⟩ := Instruction.imagePath_eq_error.mp hpath
      exact .noValue hindex hi hvalues
    | ok path =>
      have hhead := Instruction.imagePath_eq_ok.mp hpath
      simp only
      cases himage : Image.parse path with
      | error e => exact .badImage hindex hi hhead himage
      | ok image => exact .found hindex hi hhead himage

theorem baseImage_eq_ok :
    d.baseImage = .ok image ↔ ∃ index i path, d.IsBase index ∧ d.instructions[index]? = some i ∧
      i.values.head? = some path ∧ Image.parse path = .ok image := by
  constructor
  · intro h
    have hout := d.outcome []
    generalize (d.retag []).value = result at hout
    rw [h] at hout
    cases hout with
    | found hindex hi hhead himage => exact ⟨_, _, _, hindex, hi, hhead, himage⟩
  · rintro ⟨index, i, path, hindex, hi, hhead, himage⟩
    unfold baseImage
    rw [base_eq_ok.mpr ⟨hindex, hi⟩]
    show i.imagePath >>= Image.parse = _
    rw [Instruction.imagePath_eq_ok.mpr hhead]
    exact himage

theorem retag_eq_ok :
    (d.retag tag).value = .ok d' ↔ ∃ index i path image, d.IsBase index ∧
      d.instructions[index]? = some i ∧ i.values.head? = some path ∧ Image.parse path = .ok image ∧
      d' = d.replaceAt index (i.withImagePath ({ image with tag := some tag } : Image).render) := by
  constructor
  · intro h
    have hout := d.outcome tag
    generalize d.baseImage = read at hout
    rw [h] at hout
    cases hout with
    | found hindex hi hhead himage => exact ⟨_, _, _, _, hindex, hi, hhead, himage, rfl⟩
  · rintro ⟨index, i, path, image, hindex, hi, hhead, himage, rfl⟩
    simp only [retag, base_eq_ok.mpr ⟨hindex, hi⟩, Instruction.imagePath_eq_ok.mpr hhead, himage,
      bind, Except.bind]
    rfl

/-! ## Failing -/

/-- There is one declaration at most, so what holds of one of them holds of this one. -/
theorem exists_base_iff {P : Instruction → Prop} (hindex : d.IsBase index)
    (hi : d.instructions[index]? = some i) :
    (∃ k j, d.IsBase k ∧ d.instructions[k]? = some j ∧ P j) ↔ P i := by
  constructor
  · rintro ⟨k, j, hk, hj, hP⟩
    obtain rfl := hindex.unique hk
    rw [hi] at hj
    cases hj
    exact hP
  · exact fun hP => ⟨index, i, hindex, hi, hP⟩

theorem baseImage_eq_notFound :
    (∃ detail, d.baseImage = .error (.notFound detail)) ↔ ∀ index, ¬ d.IsBase index := by
  have hout := d.outcome []
  generalize d.baseImage = read, (d.retag []).value = result at hout
  cases hout with
  | noBase hnone => exact iff_of_true ⟨_, rfl⟩ hnone
  | noValue hindex => exact iff_of_false (by rintro ⟨_, ⟨⟩⟩) fun hnone => hnone _ hindex
  | badImage hindex _ _ himage =>
    obtain ⟨_, rfl⟩ := Image.parse_eq_error himage
    exact iff_of_false (by rintro ⟨_, ⟨⟩⟩) fun hnone => hnone _ hindex
  | found hindex => exact iff_of_false (by rintro ⟨_, ⟨⟩⟩) fun hnone => hnone _ hindex

theorem baseImage_eq_missingValue :
    (∃ detail, d.baseImage = .error (.missingValue detail)) ↔
      ∃ index i, d.IsBase index ∧ d.instructions[index]? = some i ∧ i.values = [] := by
  have hout := d.outcome []
  generalize d.baseImage = read, (d.retag []).value = result at hout
  cases hout with
  | noBase hnone =>
    exact iff_of_false (by rintro ⟨_, ⟨⟩⟩) fun ⟨index, _, hindex, _⟩ => hnone index hindex
  | noValue hindex hi hvalues => exact iff_of_true ⟨_, rfl⟩ ⟨_, _, hindex, hi, hvalues⟩
  | badImage hindex hi hhead himage =>
    obtain ⟨_, rfl⟩ := Image.parse_eq_error himage
    rw [exists_base_iff hindex hi]
    exact iff_of_false (by rintro ⟨_, ⟨⟩⟩) fun hvalues => by simp [hvalues] at hhead
  | found hindex hi hhead =>
    rw [exists_base_iff hindex hi]
    exact iff_of_false (by rintro ⟨_, ⟨⟩⟩) fun hvalues => by simp [hvalues] at hhead

theorem baseImage_eq_badImage :
    (∃ detail, d.baseImage = .error (.badImage detail)) ↔
      ∃ index i, d.IsBase index ∧ d.instructions[index]? = some i ∧
        ∃ path e, i.values.head? = some path ∧ Image.parse path = .error e := by
  have hout := d.outcome []
  generalize d.baseImage = read, (d.retag []).value = result at hout
  cases hout with
  | noBase hnone =>
    exact iff_of_false (by rintro ⟨_, ⟨⟩⟩) fun ⟨index, _, hindex, _⟩ => hnone index hindex
  | noValue hindex hi hvalues =>
    rw [exists_base_iff hindex hi]
    exact iff_of_false (by rintro ⟨_, ⟨⟩⟩) fun ⟨_, _, hhead, _⟩ => by simp [hvalues] at hhead
  | badImage hindex hi hhead himage =>
    obtain ⟨detail, rfl⟩ := Image.parse_eq_error himage
    exact iff_of_true ⟨detail, rfl⟩ ⟨_, _, hindex, hi, _, _, hhead, himage⟩
  | found hindex hi hhead himage =>
    rw [exists_base_iff hindex hi]
    refine iff_of_false (by rintro ⟨_, ⟨⟩⟩) fun ⟨other, _, hother, hfail⟩ => ?_
    rw [hhead] at hother
    cases hother
    rw [himage] at hfail
    cases hfail

/-- A tag cannot be given to an image that cannot be read. -/
theorem retag_eq_error : (d.retag tag).value = .error e ↔ d.baseImage = .error e := by
  have hout := d.outcome tag
  generalize d.baseImage = read, (d.retag tag).value = result at hout
  cases hout <;> simp

end Document

end Dockerfile
