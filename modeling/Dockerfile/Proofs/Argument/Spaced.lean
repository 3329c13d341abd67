import Dockerfile.Proofs.Argument.Split

/-!
# Single spaces between arguments

* `Argument.SingleSpaced`: one space stands behind each argument that has another one behind it.
* `Argument.SingleSpaced.spanFlags_eq`, `Argument.SingleSpaced.split_eq`: a text with single spaces
  is its flags or its arguments with a space before each.
-/

namespace Dockerfile.Argument

variable {p : Text → Bool} {t : Text}

/-- Exactly one space, U+0020, stands between an argument and what follows it, for the arguments up
to the first one without the property. No white space stands around the text. -/
inductive SingleSpaced (p : Text → Bool) : Text → Prop
  | nil : SingleSpaced p []
  /-- An argument without the property. -/
  | stop {t argument after : Text} :
      next? t = some (argument, after) → p argument = false → SingleSpaced p t
  /-- The last argument. -/
  | last {argument : Text} : next? argument = some (argument, []) → SingleSpaced p argument
  /-- An argument with something behind it. -/
  | more {argument after : Text} : after ≠ [] →
      next? (argument ++ ' ' :: after) = some (argument, after) → SingleSpaced p after →
      SingleSpaced p (argument ++ ' ' :: after)

/-! ## Deciding -/

theorem singleSpaced_of_next?_none (h : next? t = none) : SingleSpaced p t ↔ t = [] := by
  constructor
  · rintro (_ | ⟨hnext, -⟩ | hnext | ⟨-, hnext, -⟩)
    · rfl
    all_goals
      rw [h] at hnext
      cases hnext
  · rintro rfl
    exact .nil

theorem singleSpaced_of_next?_some {a r : Text} (h : next? t = some (a, r)) :
    SingleSpaced p t ↔
      p a = false ∨ t = a ∧ r = [] ∨ t = a ++ ' ' :: r ∧ r ≠ [] ∧ SingleSpaced p r := by
  constructor
  · rintro (_ | ⟨hnext, hp⟩ | hnext | ⟨hafter, hnext, hr⟩)
    · cases h
    all_goals
      rw [h] at hnext
      cases hnext
    · exact .inl hp
    · exact .inr (.inl ⟨rfl, rfl⟩)
    · exact .inr (.inr ⟨rfl, hafter, hr⟩)
  · rintro (hp | ⟨rfl, rfl⟩ | ⟨rfl, hafter, hr⟩)
    · exact .stop h hp
    · exact .last h
    · exact .more hafter h hr

instance decidableSingleSpaced (p : Text → Bool) (t : Text) : Decidable (SingleSpaced p t) :=
  match h : next? t with
  | none => decidable_of_iff _ (singleSpaced_of_next?_none h).symm
  | some (_, r) =>
    haveI := decidableSingleSpaced p r
    decidable_of_iff _ (singleSpaced_of_next?_some h).symm
termination_by t.length
decreasing_by exact next?_length h

/-! ## Reading -/

/-- Single spaces between the arguments of the text. -/
theorem SingleSpaced.split_eq (h : SingleSpaced (fun _ => true) t) (ht : t ≠ []) :
    ' ' :: t = (split t).flatMap (' ' :: ·) := by
  induction h with
  | nil => contradiction
  | stop _ hp => cases hp
  | last hnext => simp [split_of_next?_some hnext]
  | more hafter hnext _ ih =>
    rw [split_of_next?_some hnext, List.flatMap_cons, ← ih hafter]
    rfl

/-- Single spaces behind the flags of the text. -/
theorem SingleSpaced.spanFlags_eq (h : SingleSpaced isFlag t) (ht : t ≠ []) :
    ' ' :: t = (spanFlags t).1.flatMap (' ' :: ·) ++
      if (spanFlags t).2 = [] then [] else ' ' :: (spanFlags t).2 := by
  have hstop {t a r : Text} (ht : t ≠ []) (hnext : next? t = some (a, r))
      (hflag : isFlag a = false) : ' ' :: t = (spanFlags t).1.flatMap (' ' :: ·) ++
        if (spanFlags t).2 = [] then [] else ' ' :: (spanFlags t).2 := by
    simp [spanFlags_of_next?_some hnext, hflag, ht]
  induction h with
  | nil => contradiction
  | stop hnext hp => exact hstop ht hnext hp
  | @last a hnext =>
    cases hflag : isFlag a with
    | false => exact hstop ht hnext hflag
    | true => simp [spanFlags_of_next?_some hnext, hflag]
  | @more a r hafter hnext _ ih =>
    cases hflag : isFlag a with
    | false => exact hstop ht hnext hflag
    | true =>
      rw [spanFlags_of_next?_some hnext, if_pos hflag, List.flatMap_cons, List.append_assoc,
        ← ih hafter]
      rfl

end Dockerfile.Argument
