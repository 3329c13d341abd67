import Dockerfile.Keyword
import Dockerfile.Proofs.Text.Trim
import Dockerfile.Text.Case

/-!
# Keywords in capital letters

A word of ASCII letters and digits keeps its letters when it is written in capitals.

* `Text.isAlphanum_upper`, `Text.upper_upper`: it stays such a word, and is not changed again.
* `Text.upper_foldCase`, `Text.upper_congr`: the case of its letters does not count.
* `Keyword.upper_eq_spelling`: a name that spells a keyword is the keyword, in capitals.
* `Keyword.ofName?_upper`: it spells the same keyword.
-/

namespace Dockerfile

namespace Text

variable {t u : Text} {c : Char}

theorem forall_ascii {P : Char → Prop} (h : ∀ n : Fin 128, P (Char.ofNat n)) (hc : c.toNat < 0x80) :
    P c := by
  have := h ⟨c.toNat, hc⟩
  rwa [Char.ofNat_toNat] at this

theorem toNat_lt_of_isAlphanum (h : c.isAlphanum) : c.toNat < 0x80 := by
  have := isAlphanum_bounds h
  omega

/-- What capital letters keep of an ASCII character. -/
theorem toUpper_ascii (hc : c.toNat < 0x80) :
    c.toUpper.isAlphanum = c.isAlphanum ∧ c.toUpper.toLower = c.toLower ∧
      c.toUpper.toUpper = c.toUpper :=
  forall_ascii (P := fun c => c.toUpper.isAlphanum = c.isAlphanum ∧ c.toUpper.toLower = c.toLower ∧
    c.toUpper.toUpper = c.toUpper) (by decide +kernel) hc

theorem isAlphanum_iff : isAlphanum t ↔ t ≠ [] ∧ ∀ c ∈ t, c.isAlphanum := by
  simp [isAlphanum]

theorem upper_of_isAlphanum (h : isAlphanum t) : upper t = t.map Char.toUpper :=
  upper_of_ascii fun c hc => toNat_lt_of_isAlphanum ((isAlphanum_iff.mp h).2 c hc)

/-- What holds of all characters of a word in capital letters. -/
theorem forall_mem_upper {P : Char → Prop} (h : isAlphanum t)
    (hP : ∀ c : Char, c.isAlphanum → P c.toUpper) : ∀ c ∈ upper t, P c := by
  rw [upper_of_isAlphanum h]
  intro c hc
  obtain ⟨d, hd, rfl⟩ := List.mem_map.mp hc
  exact hP d ((isAlphanum_iff.mp h).2 d hd)

theorem isAlphanum_upper (h : isAlphanum t) : isAlphanum (upper t) := by
  refine isAlphanum_iff.mpr ⟨?_, forall_mem_upper h fun c hc => ?_⟩
  · rw [upper_of_isAlphanum h]
    simpa using (isAlphanum_iff.mp h).1
  · rw [(toUpper_ascii (toNat_lt_of_isAlphanum hc)).1, hc]

theorem upper_upper (h : isAlphanum t) : upper (upper t) = upper t := by
  rw [upper_of_isAlphanum (isAlphanum_upper h), upper_of_isAlphanum h, List.map_map]
  refine List.map_congr_left fun c hc => ?_
  exact (toUpper_ascii (toNat_lt_of_isAlphanum ((isAlphanum_iff.mp h).2 c hc))).2.2

theorem toNat_lt_of_toLower (h : c.toLower.toNat < 0x80) : c.toNat < 0x80 := by
  unfold Char.toLower at h
  split at h
  next hcapital =>
    obtain ⟨-, hle⟩ := hcapital
    have : c.toNat ≤ 90 := UInt32.le_iff_toNat_le.mp hle
    omega
  next => exact h

/-- What small letters keep of an ASCII character. -/
theorem toLower_ascii (hc : c.toNat < 0x80) :
    c.toLower.isAlphanum = c.isAlphanum ∧ c.toLower.toUpper = c.toUpper :=
  forall_ascii (P := fun c => c.toLower.isAlphanum = c.isAlphanum ∧ c.toLower.toUpper = c.toUpper)
    (by decide +kernel) hc

theorem isAlphanum_foldCase : isAlphanum (foldCase t) = isAlphanum t := by
  have hchar (c : Char) : c.toLower.isAlphanum = c.isAlphanum := by
    by_cases hc : c.toNat < 0x80
    · exact (toLower_ascii hc).1
    · have hlower : ¬ c.toLower.toNat < 0x80 := mt toNat_lt_of_toLower hc
      rw [Bool.eq_false_iff.mpr (mt toNat_lt_of_isAlphanum hc),
        Bool.eq_false_iff.mpr (mt toNat_lt_of_isAlphanum hlower)]
  simp [isAlphanum, foldCase, Function.comp_def, hchar]

theorem isAlphanum_congr (h : foldCase t = foldCase u) : isAlphanum t = isAlphanum u := by
  rw [← isAlphanum_foldCase, h, isAlphanum_foldCase]

theorem upper_foldCase (h : isAlphanum t) : upper (foldCase t) = upper t := by
  rw [upper_of_isAlphanum h, upper_of_isAlphanum (by rw [isAlphanum_foldCase, h]), foldCase,
    List.map_map]
  refine List.map_congr_left fun c hc => ?_
  exact (toLower_ascii (toNat_lt_of_isAlphanum ((isAlphanum_iff.mp h).2 c hc))).2

/-- Words with the same letters are the same in capital letters. -/
theorem upper_congr (h : foldCase t = foldCase u) (hu : isAlphanum u) : upper t = upper u := by
  rw [← upper_foldCase hu, ← h, upper_foldCase (by rw [isAlphanum_congr h, hu])]

theorem foldCase_upper (h : isAlphanum t) : foldCase (upper t) = foldCase t := by
  rw [upper_of_isAlphanum h, foldCase, foldCase, List.map_map]
  refine List.map_congr_left fun c hc => ?_
  exact (toUpper_ascii (toNat_lt_of_isAlphanum ((isAlphanum_iff.mp h).2 c hc))).2.1

end Text

namespace Keyword

theorem isAlphanum_spelling (k : Keyword) : Text.isAlphanum k.spelling := by
  cases k <;> decide

/-- A name that spells a keyword is the keyword, up to the case of its letters. -/
theorem upper_eq_spelling {name : Text} {k : Keyword} (h : ofName? name = some k) :
    Text.upper name = k.spelling := by
  have hfold := ofName?_eq_some_iff.mp h
  rw [Text.upper_congr hfold.symm k.isAlphanum_spelling]
  cases k <;> decide +kernel

/-- Only the letters of a name decide which keyword it spells. -/
theorem ofName?_congr {name other : Text} (h : Text.foldCase name = Text.foldCase other) :
    ofName? name = ofName? other := by
  unfold ofName? spelledBy Text.sameLetters
  rw [h]

theorem ofName?_upper {name : Text} (h : Text.isAlphanum name) :
    ofName? (Text.upper name) = ofName? name :=
  ofName?_congr (Text.foldCase_upper h)

end Keyword

end Dockerfile
