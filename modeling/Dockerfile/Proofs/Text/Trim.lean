import Dockerfile.Proofs.Text.Cut

/-!
# Texts without white space at their ends

* `Text.Blank`: only white space.
* `Text.NoLead`, `Text.NoTrail`, `Text.Trimmed`: no white space at the start, at the end, at either.
* `Text.exists_trimStart`, `Text.exists_trimEnd`: trimming takes away white space only.
* `Text.trimmed_trim`, `Text.Trimmed.trim_eq`: the trimmed texts are those that `trim` keeps.
-/

namespace Dockerfile.Text

variable {t u : Text} {c : Char}

/-- Only white space. -/
def Blank (t : Text) : Prop := ∀ c ∈ t, isSpace c

/-- The text does not start with white space. -/
def NoLead (t : Text) : Prop := ∀ c ∈ t.head?, isSpace c = false

/-- The text does not end with white space. -/
def NoTrail (t : Text) : Prop := ∀ c ∈ t.getLast?, isSpace c = false

/-- No white space stands at either end of the text. -/
def Trimmed (t : Text) : Prop := NoLead t ∧ NoTrail t

-- Instances for all characters would try every one of them.
instance : Decidable (NoLead t) :=
  Option.decidableForallMem (p := fun c => isSpace c = false) t.head?

instance : Decidable (NoTrail t) :=
  Option.decidableForallMem (p := fun c => isSpace c = false) t.getLast?

instance : Decidable (Trimmed t) := inferInstanceAs (Decidable (NoLead t ∧ NoTrail t))

/-! ## Characters -/

theorem isAlphanum_bounds (h : c.isAlphanum) :
    (65 ≤ c.toNat ∧ c.toNat ≤ 90 ∨ 97 ≤ c.toNat ∧ c.toNat ≤ 122) ∨
      48 ≤ c.toNat ∧ c.toNat ≤ 57 := by
  have hranges : ((decide (c.val ≥ 65 ∧ c.val ≤ 90) ||
      (decide (c.val ≥ 97) && decide (c.val ≤ 122))) ||
      (decide (c.val ≥ 48) && decide (c.val ≤ 57))) = true := h
  simpa [UInt32.le_iff_toNat_le] using hranges

theorem isSpace_of_isAlphanum (h : c.isAlphanum) : isSpace c = false := by
  have hc := isAlphanum_bounds h
  simp only [isSpace, Bool.or_eq_false_iff, Bool.and_eq_false_iff, decide_eq_false_iff_not,
    beq_eq_false_iff_ne]
  omega

theorem ne_of_isSpace {d : Char} (h : isSpace c) (hd : isSpace d = false) : c ≠ d := by
  rintro rfl
  rw [h] at hd
  cases hd

theorem ne_of_isAlphanum {d : Char} (h : c.isAlphanum) (hd : d.isAlphanum = false) : c ≠ d := by
  rintro rfl
  rw [h] at hd
  cases hd

/-! ## The start -/

@[simp] theorem noLead_nil : NoLead [] := by simp [NoLead]

@[simp] theorem noLead_cons : NoLead (c :: t) ↔ isSpace c = false := by simp [NoLead]

theorem NoLead.append (ht : NoLead t) (h : t ≠ []) : NoLead (t ++ u) := by
  cases t with
  | nil => contradiction
  | cons c t => simpa using ht

theorem noLead_trimStart (t : Text) : NoLead (trimStart t) := by
  cases h : trimStart t with
  | nil => simp
  | cons c rest => simpa using isSpace_of_trimStart h

theorem NoLead.trimStart_eq (h : NoLead t) : trimStart t = t := by
  cases t with
  | nil => rfl
  | cons c rest =>
    rw [noLead_cons] at h
    simp [trimStart, h]

theorem NoLead.eq_nil_of_blank (h : NoLead t) (hb : Blank t) : t = [] := by
  cases t with
  | nil => rfl
  | cons c rest =>
    rw [noLead_cons, hb c List.mem_cons_self] at h
    cases h

theorem trimStart_append_of_blank (h : Blank t) : trimStart (t ++ u) = trimStart u :=
  List.dropWhile_append_of_pos h

theorem trimStart_of_blank (h : Blank t) : trimStart t = [] := by
  simpa [trimStart] using trimStart_append_of_blank (u := []) h

@[simp] theorem trimStart_space (t : Text) : trimStart (' ' :: t) = trimStart t :=
  trimStart_append_of_blank (t := [' ']) (by simp [Blank, isSpace])

/-- Only white space is trimmed. -/
theorem exists_trimStart (t : Text) : ∃ lead, Blank lead ∧ t = lead ++ trimStart t :=
  ⟨t.takeWhile isSpace, fun _ hc => List.mem_takeWhile_imp hc,
    List.takeWhile_append_dropWhile.symm⟩

theorem blank_of_trimStart_eq_nil (h : trimStart t = []) : Blank t := by
  obtain ⟨lead, hlead, ht⟩ := exists_trimStart t
  rw [h, List.append_nil] at ht
  exact ht ▸ hlead

theorem trimStart_append (h : trimStart t ≠ []) : trimStart (t ++ u) = trimStart t ++ u := by
  obtain ⟨lead, hlead, ht⟩ := exists_trimStart t
  have hcut : t ++ u = lead ++ (trimStart t ++ u) := by rw [← List.append_assoc, ← ht]
  rw [hcut, trimStart_append_of_blank hlead]
  exact ((noLead_trimStart t).append h).trimStart_eq

/-! ## The end -/

@[simp] theorem noTrail_nil : NoTrail [] := by simp [NoTrail]

theorem NoTrail.append (hu : NoTrail u) (h : u ≠ []) : NoTrail (t ++ u) := by
  intro c hc
  rw [List.getLast?_append, List.getLast?_eq_some_getLast h] at hc
  exact hu c (by rwa [List.getLast?_eq_some_getLast h])

theorem NoTrail.of_append (h : NoTrail (t ++ u)) : NoTrail u := by
  intro c hc
  apply h
  rw [List.getLast?_append, hc]
  rfl

theorem NoTrail.eq_nil_of_blank (h : NoTrail t) (hb : Blank t) : t = [] := by
  by_contra hne
  have hlast := h _ (List.getLast?_eq_some_getLast hne)
  rw [hb _ (List.getLast_mem hne)] at hlast
  cases hlast

theorem noTrail_trimEnd (t : Text) : NoTrail (trimEnd t) := by
  intro c hc
  rw [trimEnd, List.getLast?_reverse] at hc
  exact noLead_trimStart t.reverse c hc

theorem NoTrail.trimEnd_eq (h : NoTrail t) : trimEnd t = t := by
  have hlead : NoLead t.reverse := by
    intro c hc
    rw [List.head?_reverse] at hc
    exact h c hc
  have := hlead.trimStart_eq
  rw [trimStart] at this
  rw [trimEnd, this, List.reverse_reverse]

/-- Only white space is trimmed. -/
theorem exists_trimEnd (t : Text) : ∃ trail, Blank trail ∧ t = trimEnd t ++ trail := by
  obtain ⟨lead, hlead, ht⟩ := exists_trimStart t.reverse
  refine ⟨lead.reverse, fun c hc => hlead c (List.mem_reverse.mp hc), ?_⟩
  rw [trimEnd, ← trimStart, ← List.reverse_append, ← ht, List.reverse_reverse]

theorem NoLead.trimEnd (h : NoLead t) : NoLead (trimEnd t) := by
  obtain ⟨trail, -, ht⟩ := exists_trimEnd t
  cases he : Text.trimEnd t with
  | nil => simp
  | cons c rest =>
    rw [he] at ht
    rw [ht] at h
    simpa using h

theorem mem_of_mem_trimEnd (h : c ∈ trimEnd t) : c ∈ t := by
  obtain ⟨trail, -, ht⟩ := exists_trimEnd t
  rw [ht]
  exact List.mem_append_left _ h

theorem trimEnd_append_of_blank (h : Blank u) : trimEnd (t ++ u) = trimEnd t := by
  rw [trimEnd, List.reverse_append, List.dropWhile_append_of_pos fun c hc =>
    h c (List.mem_reverse.mp hc), trimEnd]

theorem trimEnd_concat (h : isSpace c) : trimEnd (t ++ [c]) = trimEnd t :=
  trimEnd_append_of_blank (by simpa [Blank] using h)

theorem trimEnd_append (h : trimEnd u ≠ []) : trimEnd (t ++ u) = t ++ trimEnd u := by
  obtain ⟨trail, htrail, hu⟩ := exists_trimEnd u
  have hcut : t ++ u = (t ++ trimEnd u) ++ trail := by rw [List.append_assoc, ← hu]
  rw [hcut, trimEnd_append_of_blank htrail]
  exact ((noTrail_trimEnd u).append h).trimEnd_eq

theorem blank_of_trimEnd_eq_nil (h : trimEnd t = []) : Blank t := by
  obtain ⟨trail, htrail, ht⟩ := exists_trimEnd t
  rw [h, List.nil_append] at ht
  exact ht ▸ htrail

/-! ## Both ends -/

theorem mem_of_mem_trim (h : c ∈ trim t) : c ∈ t := by
  obtain ⟨lead, -, ht⟩ := exists_trimStart t
  rw [ht]
  exact List.mem_append_right _ (mem_of_mem_trimEnd h)

theorem trimmed_trim (t : Text) : Trimmed (trim t) :=
  ⟨(noLead_trimStart t).trimEnd, noTrail_trimEnd _⟩

/-- White space behind a text is trimmed. -/
theorem trim_concat (h : isSpace c) : trim (t ++ [c]) = trim t := by
  by_cases hnil : trimStart t = []
  · have ht : Blank t := blank_of_trimStart_eq_nil hnil
    have htc : Blank (t ++ [c]) :=
      List.forall_mem_append.mpr ⟨ht, List.forall_mem_singleton.mpr h⟩
    rw [trim, trim, trimStart_of_blank htc, trimStart_of_blank ht]
  · rw [trim, trimStart_append hnil, trimEnd_concat h, trim]

theorem Trimmed.trim_eq (h : Trimmed t) : trim t = t := by
  rw [trim, h.1.trimStart_eq, h.2.trimEnd_eq]

end Dockerfile.Text
