import Dockerfile.Text.Basic
import Mathlib.Data.List.TakeWhile

/-!
# Cutting texts

* `Text.cut_iff`: `takeWhile` and `dropWhile` cut a text where a property fails for the first time.
* `Text.UpTo`, `Text.UpTo.unique`: lines up to the first one with a property, and that they can be
  told from the lines behind them.
* `Text.exists_upTo_or`: lines start with such lines, unless none has the property.
-/

namespace Dockerfile.Text

variable {p : Char → Bool} {t before after : Text} {c : Char}

/-- `takeWhile` and `dropWhile` cut a text before the first character without the property. -/
theorem cut_iff :
    t.takeWhile p = before ∧ t.dropWhile p = c :: after ↔
      t = before ++ c :: after ∧ (∀ b ∈ before, p b) ∧ p c = false := by
  constructor
  · rintro ⟨rfl, hd⟩
    refine ⟨?_, fun b hb => List.mem_takeWhile_imp hb, ?_⟩
    · rw [← hd, List.takeWhile_append_dropWhile]
    · have := List.head?_dropWhile_not p t
      rw [hd] at this
      simpa using this
  · rintro ⟨rfl, hb, hc⟩
    rw [List.takeWhile_append_of_pos hb, List.dropWhile_append_of_pos hb]
    simp [hc]

/-! ## Lines -/

section UpTo

variable {p : Text → Bool} {l : Text} {ls ks rest more : List Text}

/-- The last of the lines is the first one with the property. -/
def UpTo (p : Text → Bool) (ls : List Text) : Prop :=
  ∃ front l, ls = front ++ [l] ∧ (∀ k ∈ front, p k = false) ∧ p l

theorem UpTo.singleton (h : p l) : UpTo p [l] := ⟨[], l, rfl, by simp, h⟩

theorem UpTo.cons (hl : p l = false) (h : UpTo p ls) : UpTo p (l :: ls) := by
  obtain ⟨front, k, rfl, hfront, hk⟩ := h
  exact ⟨l :: front, k, rfl, List.forall_mem_cons.mpr ⟨hl, hfront⟩, hk⟩

/-- Only which of the lines have the property counts. -/
theorem UpTo.of_map_eq (h : UpTo p ls) (hmap : ks.map p = ls.map p) : UpTo p ks := by
  obtain ⟨front, l, rfl, hfront, hl⟩ := h
  rw [List.map_append] at hmap
  obtain ⟨front', last, rfl, hfront', hlast⟩ := List.map_eq_append_iff.mp hmap
  obtain ⟨l', rfl, hl'⟩ := List.map_eq_singleton_iff.mp hlast
  refine ⟨front', l', rfl, fun k hk => ?_, by rwa [hl']⟩
  obtain ⟨j, hj, hjk⟩ := List.mem_map.mp (hfront' ▸ List.mem_map_of_mem (f := p) hk)
  rw [← hjk, hfront j hj]

/-- None of the lines has the property, or they start with the lines up to the first one with it. -/
theorem exists_upTo_or (p : Text → Bool) (ls : List Text) :
    (∀ l ∈ ls, p l = false) ∨ ∃ front rest, ls = front ++ rest ∧ UpTo p front := by
  induction ls with
  | nil => exact .inl (by simp)
  | cons l ls ih =>
    cases hl : p l with
    | true => exact .inr ⟨[l], ls, rfl, .singleton hl⟩
    | false =>
      rcases ih with hnone | ⟨front, rest, rfl, hfront⟩
      · exact .inl (List.forall_mem_cons.mpr ⟨hl, hnone⟩)
      · exact .inr ⟨l :: front, rest, rfl, hfront.cons hl⟩

/-- What stands behind the lines does not matter. -/
theorem UpTo.unique (hls : UpTo p ls) (hks : UpTo p ks) (h : ls ++ rest = ks ++ more) :
    ls = ks := by
  obtain ⟨front, l, rfl, hfront, hl⟩ := hls
  obtain ⟨front', k, rfl, hfront', hk⟩ := hks
  have hcut {front' : List Text} {k : Text} {more : List Text} (hf : ∀ j ∈ front', p j = false)
      (hk : p k) : (front' ++ [k] ++ more).takeWhile (!p ·) = front' := by
    rw [List.append_assoc, List.takeWhile_append_of_pos fun j hj => by simp [hf j hj]]
    simp [hk]
  have hsame := congrArg (List.takeWhile (!p ·)) h
  rw [hcut hfront hl, hcut hfront' hk] at hsame
  subst hsame
  rw [List.append_assoc, List.append_assoc] at h
  obtain ⟨rfl, -⟩ := List.cons.inj (List.append_cancel_left h)
  rfl

end UpTo

end Dockerfile.Text
