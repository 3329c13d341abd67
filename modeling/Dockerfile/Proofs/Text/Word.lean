import Dockerfile.Argument
import Dockerfile.Proofs.Text.Trim

/-!
# The first word of a text

* `Text.firstWord_append`, `Text.afterFirstWord_append`: the first word ends at white space.
* `Text.exists_firstWord`: nothing but white space stands between it and what follows.
-/

namespace Dockerfile.Text

variable {t u word : Text} {c : Char}

/-- A text in two parts, of which the second is empty or starts with white space. -/
theorem cut_at_space (hword : ∀ c ∈ word, isSpace c = false) (hu : ∀ c ∈ u.head?, isSpace c) :
    (word ++ u).takeWhile (!isSpace ·) = word ∧ (word ++ u).dropWhile (!isSpace ·) = u := by
  have hpos : ∀ c ∈ word, (!isSpace c) = true := fun c hc => by simp [hword c hc]
  rw [List.takeWhile_append_of_pos hpos, List.dropWhile_append_of_pos hpos]
  cases u with
  | nil => simp
  | cons c u => simp [hu c rfl]

theorem firstWord_append (ht : Trimmed (word ++ u)) (hword : ∀ c ∈ word, isSpace c = false)
    (hu : ∀ c ∈ u.head?, isSpace c) : firstWord (word ++ u) = word := by
  rw [firstWord, ht.trim_eq, (cut_at_space hword hu).1]

theorem afterFirstWord_append (ht : Trimmed (word ++ u)) (hword : ∀ c ∈ word, isSpace c = false)
    (hu : ∀ c ∈ u.head?, isSpace c) : afterFirstWord (word ++ u) = trimStart u := by
  rw [afterFirstWord, ht.trim_eq, (cut_at_space hword hu).2]

theorem noLead_afterFirstWord (t : Text) : NoLead (afterFirstWord t) := noLead_trimStart _

/-- The first word of a trimmed text, and white space before what follows it. -/
theorem exists_firstWord (ht : Trimmed t) :
    ∃ sep, Blank sep ∧ t = firstWord t ++ (sep ++ afterFirstWord t) ∧
      (sep ++ afterFirstWord t ≠ [] → sep ≠ []) := by
  obtain ⟨sep, hsep, hdrop⟩ := exists_trimStart (t.dropWhile (!isSpace ·))
  have hafter : afterFirstWord t = trimStart (t.dropWhile (!isSpace ·)) := by
    rw [afterFirstWord, ht.trim_eq]
  have hcut : firstWord t ++ t.dropWhile (!isSpace ·) = t := by
    rw [firstWord, ht.trim_eq, List.takeWhile_append_dropWhile]
  rw [← hafter] at hdrop
  refine ⟨sep, hsep, by rw [← hdrop, hcut], ?_⟩
  rintro hne rfl
  rw [List.nil_append] at hdrop hne
  obtain ⟨c, rest, hcons⟩ := List.exists_cons_of_ne_nil hne
  have hlead := noLead_afterFirstWord t
  obtain ⟨-, -, hspace⟩ := cut_iff.mp ⟨rfl, hdrop.trans hcons⟩
  rw [hcons, noLead_cons] at hlead
  simp [hlead] at hspace

theorem afterFirstWord_suffix (ht : Trimmed t) : afterFirstWord t <:+ t := by
  obtain ⟨sep, -, h, -⟩ := exists_firstWord ht
  exact ⟨firstWord t ++ sep, by rw [List.append_assoc, ← h]⟩

theorem NoTrail.of_suffix (ht : NoTrail t) (h : u <:+ t) : NoTrail u := by
  obtain ⟨before, rfl⟩ := h
  exact ht.of_append

theorem mem_of_mem_afterFirstWord (h : c ∈ afterFirstWord t) : c ∈ t :=
  mem_of_mem_trim ((List.dropWhile_sublist _).subset ((List.dropWhile_sublist _).subset h))

end Dockerfile.Text
