import Dockerfile.Json.Token
import Mathlib.Data.List.Basic
import Mathlib.Data.List.TakeWhile

/-!
# Numbers

A number that has been written is read back up to its end, as long as none of the characters that
may stand in a number follows it.

* `Json.Number.scan_append_of_noPart`: what follows a number does not change it.
* `Json.Number.head_of_scan`: the characters with which a number starts.
* `Json.Number.scan_ofNat`, `Json.nat64?_ofNat`: the digits of a natural number.
-/

namespace Dockerfile.Json

namespace Number

variable {t x after rest head : Text} {c : Char} {n : Nat}

/-! ## What follows a number -/

/-- The characters that may stand in a number. -/
def isPart (c : Char) : Bool :=
  c.isDigit || c == '.' || c == 'e' || c == 'E' || c == '+' || c == '-'

/-- The text does not go on with a part of a number. -/
def NoPart (rest : Text) : Prop := ∀ c ∈ rest.head?, isPart c = false

theorem NoPart.isDigit (h : NoPart rest) : ∀ c ∈ rest.head?, c.isDigit = false := fun c hc => by
  have := h c hc
  simp only [isPart, Bool.or_eq_false_iff] at this
  exact this.1.1.1.1.1

theorem NoPart.not_mem {marks : List Char} (h : NoPart rest) (hmarks : marks.all isPart) :
    ∀ c ∈ rest.head?, c ∉ marks := fun c hc hmem => by
  have := List.all_eq_true.mp hmarks c hmem
  rw [h c hc] at this
  cases this

theorem digits?_append_of_noPart (h : digits? t = some (x, after)) (hrest : NoPart rest) :
    digits? (t ++ rest) = some (x, after ++ rest) := by
  have hcut : (t ++ rest).takeWhile Char.isDigit = t.takeWhile Char.isDigit ∧
      (t ++ rest).dropWhile Char.isDigit = t.dropWhile Char.isDigit ++ rest := by
    have hhead := hrest.isDigit
    clear h
    induction t with
    | nil => cases rest <;> simp_all
    | cons c t ih => by_cases hc : c.isDigit <;> simp [hc, ih]
  simp only [digits?, hcut] at h ⊢
  split at h
  · cases h
  · next hne =>
    cases h
    rw [if_neg hne]

theorem mark_append_of_noPart (marks : List Char) (hmarks : marks.all isPart)
    (hrest : NoPart rest) (t : Text) :
    mark marks (t ++ rest) = ((mark marks t).1, (mark marks t).2 ++ rest) := by
  cases t with
  | nil =>
    cases rest with
    | nil => rfl
    | cons c rest => simp [mark, hrest.not_mem hmarks c rfl]
  | cons c t =>
    simp only [List.cons_append, mark]
    split <;> rfl

theorem whole?_append_of_noPart (h : whole? t = some (x, after)) (hrest : NoPart rest) :
    whole? (t ++ rest) = some (x, after ++ rest) := by
  unfold whole? at h
  split at h
  · cases h
    rfl
  · next hzero =>
    cases t with
    | nil => cases h
    | cons c t =>
      have hc : c ≠ '0' := fun hc => hzero t (by rw [hc])
      rw [List.cons_append, whole?, ← List.cons_append]
      · exact digits?_append_of_noPart h hrest
      · rintro more heq
        exact hc (List.cons.inj heq).1

theorem digitsAfter?_append_of_noPart (h : digitsAfter? head t = some (x, after))
    (hrest : NoPart rest) : digitsAfter? head (t ++ rest) = some (x, after ++ rest) := by
  obtain ⟨⟨ds, r⟩, hd, hp⟩ := Option.map_eq_some_iff.mp h
  cases hp
  rw [digitsAfter?, digits?_append_of_noPart hd hrest]
  rfl

theorem fraction?_append_of_noPart (h : fraction? t = some (x, after)) (hrest : NoPart rest) :
    fraction? (t ++ rest) = some (x, after ++ rest) := by
  rw [fraction?] at h ⊢
  rw [mark_append_of_noPart ['.'] (by decide) hrest]
  generalize mark ['.'] t = marked at h ⊢
  obtain ⟨point, r⟩ := marked
  cases point with
  | nil =>
    cases h
    rfl
  | cons c point => exact digitsAfter?_append_of_noPart h hrest

theorem exponent?_append_of_noPart (h : exponent? t = some (x, after)) (hrest : NoPart rest) :
    exponent? (t ++ rest) = some (x, after ++ rest) := by
  rw [exponent?] at h ⊢
  rw [mark_append_of_noPart ['e', 'E'] (by decide) hrest]
  generalize mark ['e', 'E'] t = marked at h ⊢
  obtain ⟨letter, r⟩ := marked
  cases letter with
  | nil =>
    cases h
    rfl
  | cons c letter =>
    simp only [mark_append_of_noPart ['+', '-'] (by decide) hrest]
    exact digitsAfter?_append_of_noPart h hrest

/-- A number ends where no part of one follows. -/
theorem scan_append_of_noPart (h : scan t = some (x, after)) (hrest : NoPart rest) :
    scan (t ++ rest) = some (x, after ++ rest) := by
  simp only [scan, Option.bind_eq_bind, Option.bind_eq_some_iff] at h
  obtain ⟨⟨whole, t₁⟩, hw, ⟨fraction, t₂⟩, hf, ⟨exponent, t₃⟩, he, hr⟩ := h
  cases hr
  simp only [scan, mark_append_of_noPart ['-'] (by decide) hrest,
    whole?_append_of_noPart hw hrest, fraction?_append_of_noPart hf hrest,
    exponent?_append_of_noPart he hrest, Option.bind_eq_bind, Option.bind_some, Option.pure_def]

theorem isDigit_of_whole? {p : Text × Text} (h : whole? (c :: t) = some p) : c.isDigit := by
  unfold whole? at h
  split at h
  · next heq =>
    cases heq
    decide
  · by_contra hc
    simp [digits?, hc] at h

/-- A number starts with a minus sign or a digit. -/
theorem head_of_scan (h : scan (c :: t) = some (x, after)) : c = '-' ∨ c.isDigit := by
  by_cases hc : c = '-'
  · exact .inl hc
  · have hmark : mark ['-'] (c :: t) = ([], c :: t) := by simp [mark, hc]
    simp only [scan, hmark, Option.bind_eq_bind, Option.bind_eq_some_iff] at h
    obtain ⟨p, hw, -⟩ := h
    exact .inr (isDigit_of_whole? hw)

/-! ## Natural numbers -/

/-- Only zero has a leading zero. -/
theorem head?_ofNat (hn : n ≠ 0) : (Text.ofNat n).head? ≠ some '0' := by
  induction n using Nat.strongRecOn with
  | ind n ih =>
    rw [Text.ofNat, Nat.toDigits_eq_if (by decide)]
    split
    · simpa using hn
    · rw [List.head?_append_of_ne_nil _ Nat.toDigits_ne_nil]
      exact ih (n / 10) (Nat.div_lt_self (Nat.pos_of_ne_zero hn) (by decide)) (by omega)

theorem isDigit_of_mem_ofNat : ∀ c ∈ Text.ofNat n, c.isDigit := fun _ =>
  Nat.isDigit_of_mem_toDigits (by decide) (by decide)

theorem whole?_ofNat (n : Nat) : whole? (Text.ofNat n) = some (Text.ofNat n, []) := by
  by_cases hn : n = 0
  · subst hn
    decide
  · have hne : Text.ofNat n ≠ [] := Nat.toDigits_ne_nil
    rw [whole?]
    · rw [digits?, List.takeWhile_eq_self_iff.mpr isDigit_of_mem_ofNat,
        List.dropWhile_eq_nil_iff.mpr isDigit_of_mem_ofNat, if_neg hne]
    · rintro rest heq
      exact head?_ofNat hn (by rw [heq]; rfl)

theorem scan_ofNat (n : Nat) : scan (Text.ofNat n) = some (Text.ofNat n, []) := by
  have hmark : mark ['-'] (Text.ofNat n) = ([], Text.ofNat n) := by
    cases hdigits : Text.ofNat n with
    | nil => rfl
    | cons c t =>
      have hc : c.isDigit := isDigit_of_mem_ofNat c (by rw [hdigits]; exact List.mem_cons_self)
      have hne : c ≠ '-' := by
        rintro rfl
        cases hc
      simp [mark, hne]
  have hfraction : fraction? [] = some ([], []) := rfl
  have hexponent : exponent? [] = some ([], []) := rfl
  simp only [scan, hmark, whole?_ofNat, hfraction, hexponent, Option.bind_eq_bind, Option.bind_some,
    List.nil_append, List.append_nil, Option.pure_def]

end Number

/-- A number that fits 64 bits is read back. -/
theorem nat64?_ofNat {n : Nat} (hn : n < UInt64.size) : (ofNat n).nat64? = some n := by
  have hlength : (Text.ofNat n).length ≤ 20 :=
    (Nat.length_toDigits_le_iff (by decide) (by decide)).mpr (Nat.lt_trans hn (by decide))
  have hdigits : (Text.ofNat n).all Char.isDigit := by
    simpa using fun c hc => Number.isDigit_of_mem_ofNat c hc
  have hvalue : Nat.ofDigitChars 10 (Text.ofNat n) 0 = n := Nat.ofDigitChars_ten_toDigits
  simp only [ofNat, nat64?, hlength, hdigits, hvalue, hn, and_self, if_true]

end Dockerfile.Json
