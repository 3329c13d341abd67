import Dockerfile.Proofs.Statement.Header

/-!
# Headers are read as the statements they were made from

* `Statement.Plain`: the statements with a keyword other than that of an entry point.
* `Statement.Plain.trimmed_header`, `Statement.Plain.getLast?_header`: where a header starts and
  ends.
* `Statement.Plain.name_of_header`, `Statement.Plain.flags_of_header`,
  `Statement.Plain.lineValues_of_header`, `Statement.Plain.openedBy_header`: what is read from it.
-/

namespace Dockerfile.Statement

open Text Argument

variable {s t : Statement} {c : Char}

/-- A statement with a keyword, but no entry point. -/
structure Plain (s : Statement) : Prop where
  trimmed : Trimmed s.text
  isAlphanum : isAlphanum s.name
  keyword : s.keyword? ≠ some .entrypoint

/-- What is written with single spaces ends as the last argument does. -/
theorem getLast?_spaced {word a : Text} {args : List Text} (ha : a ≠ []) :
    (word ++ (args ++ [a]).flatMap (' ' :: ·)).getLast? = a.getLast? := by
  rw [List.flatMap_append, List.flatMap_singleton, ← List.append_assoc, ← List.singleton_append,
    ← List.append_assoc, List.getLast?_append, List.getLast?_eq_some_getLast ha]
  rfl

namespace Plain

/-! ## The ends of a header -/

/-- What follows the keyword. -/
theorem after_trimmed (h : s.Plain) : Trimmed (afterFirstWord s.text) :=
  ⟨noLead_afterFirstWord _, h.trimmed.2.of_suffix (afterFirstWord_suffix h.trimmed)⟩

theorem flags (h : s.Plain) : Flags s.flags s.rest := flags_spanFlags h.after_trimmed.1

/-- The last flag or value on the line ends the text of the statement. -/
theorem exists_args_append (h : s.Plain) :
    (afterFirstWord s.text = [] ∧ s.flags ++ s.lineValues = []) ∨
      ∃ before a, s.flags ++ s.lineValues = before ++ [a] ∧ a ≠ [] ∧ a <:+ s.text := by
  by_cases hafter : afterFirstWord s.text = []
  · left
    simp [Statement.flags, lineValues_eq h.keyword, Statement.rest, hafter]
  · right
    have hsuffix := afterFirstWord_suffix h.trimmed
    rcases spanFlags_suffix h.after_trimmed.1 h.after_trimmed.2 hafter with
      ⟨hrest, hend⟩ | ⟨hrest, before, f, hflags, hf, hend⟩
    · rcases lineValues_cases h.keyword with ⟨hnil, -⟩ | ⟨-, -, hvalues⟩ | ⟨-, -, hvalues⟩
      · exact absurd hnil hrest
      · exact ⟨s.flags, s.rest, by rw [hvalues], hrest, hend.trans hsuffix⟩
      · have htrail : NoTrail s.rest := h.after_trimmed.2.of_suffix hend
        obtain ⟨before, a, hsplit, ha, haend⟩ := exists_split_append htrail fun hblank =>
          hrest (h.flags.noLead.eq_nil_of_blank hblank)
        exact ⟨s.flags ++ before, a, by rw [hvalues, hsplit, List.append_assoc], ha,
          haend.trans (hend.trans hsuffix)⟩
    · have hvalues : s.lineValues = [] := by
        rw [lineValues_eq h.keyword]
        exact if_pos hrest
      exact ⟨before, f, by rw [hvalues, List.append_nil]; exact hflags, hf, hend.trans hsuffix⟩

/-- A header and the text of the statement end in the same argument, or both in the keyword. -/
theorem getLast?_header_cases (h : s.Plain) :
    s.header.getLast? = s.text.getLast? ∨
      ∀ c, c ∈ s.header.getLast? ∨ c ∈ s.text.getLast? → c.isAlphanum := by
  rcases h.exists_args_append with ⟨hafter, hnil⟩ | ⟨before, a, hargs, ha, before', hend⟩
  · right
    obtain ⟨sep, hsep, htext, -⟩ := exists_firstWord h.trimmed
    rw [hafter, List.append_nil] at htext
    have hsepNil : sep = [] := by
      have htrail := h.trimmed.2
      rw [htext] at htrail
      exact htrail.of_append.eq_nil_of_blank hsep
    rw [hsepNil, List.append_nil] at htext
    rintro c (hc | hc)
    · rw [header, hnil, List.flatMap_nil, List.append_nil] at hc
      exact (isAlphanum_iff.mp (isAlphanum_upper h.isAlphanum)).2 c (List.mem_of_getLast? hc)
    · rw [htext] at hc
      exact (isAlphanum_iff.mp h.isAlphanum).2 c (List.mem_of_getLast? hc)
  · left
    rw [header, hargs, getLast?_spaced ha, ← hend, List.getLast?_append,
      List.getLast?_eq_some_getLast ha]
    rfl

/-- A header ends as the text of the statement does, or with its keyword. -/
theorem getLast?_header (h : s.Plain) (hc : c ∈ s.header.getLast?) :
    c ∈ s.text.getLast? ∨ c.isAlphanum := by
  rcases h.getLast?_header_cases with heq | halnum
  · exact .inl (heq ▸ hc)
  · exact .inr (halnum c (.inl hc))

theorem getLast?_header_eq_some_iff (h : s.Plain) (hc : c.isAlphanum = false) :
    s.header.getLast? = some c ↔ s.text.getLast? = some c := by
  rcases h.getLast?_header_cases with heq | halnum
  · rw [heq]
  · have hboth {p : Prop} (hp : p → c.isAlphanum) : ¬ p := fun h => by simp [hp h] at hc
    exact iff_of_false (hboth fun h => halnum c (.inl h)) (hboth fun h => halnum c (.inr h))

theorem upper_ne_nil (h : s.Plain) : upper s.name ≠ [] :=
  (isAlphanum_iff.mp (isAlphanum_upper h.isAlphanum)).1

theorem isSpace_of_mem_upper (h : s.Plain) : ∀ c ∈ upper s.name, isSpace c = false := fun c hc =>
  isSpace_of_isAlphanum ((isAlphanum_iff.mp (isAlphanum_upper h.isAlphanum)).2 c hc)

theorem trimmed_header (h : s.Plain) : Trimmed s.header := by
  constructor
  · refine NoLead.append (fun c hc => ?_) h.upper_ne_nil
    exact h.isSpace_of_mem_upper c (List.mem_of_mem_head? hc)
  · intro c hc
    rcases h.getLast?_header hc with hc | hc
    · exact h.trimmed.2 c hc
    · exact isSpace_of_isAlphanum hc

/-- A header starts with a letter or a digit. -/
theorem exists_header_eq_cons (h : s.Plain) : ∃ c rest, s.header = c :: rest ∧ c.isAlphanum := by
  obtain ⟨c, rest, hcons⟩ := List.exists_cons_of_ne_nil h.upper_ne_nil
  refine ⟨c, rest ++ (s.flags ++ s.lineValues).flatMap (' ' :: ·), by rw [header, hcons]; rfl, ?_⟩
  exact (isAlphanum_iff.mp (isAlphanum_upper h.isAlphanum)).2 c (by rw [hcons]; simp)

/-! ## Reading a header -/

theorem name_of_header (h : s.Plain) (ht : t.text = s.header) : t.name = upper s.name := by
  rw [name, ht]
  exact firstWord_append h.trimmed_header h.isSpace_of_mem_upper head?_spaced

theorem keyword?_of_header (h : s.Plain) (ht : t.text = s.header) : t.keyword? = s.keyword? := by
  rw [keyword?, h.name_of_header ht, Keyword.ofName?_upper h.isAlphanum]
  rfl

/-- What follows the flags of a header. -/
def spacedValues (s : Statement) : Text := trimStart (s.lineValues.flatMap (' ' :: ·))

theorem split_spacedValues (hsplit : s.lineValues = split s.rest) :
    split (spacedValues s) = split s.rest := by
  rw [spacedValues, split_trimStart, hsplit, split_spaced (separable_split _)]

theorem spacedValues_of_takesText (h : s.Plain) (hvalues : s.lineValues = [s.rest]) :
    spacedValues s = s.rest := by
  rw [spacedValues, hvalues, List.flatMap_singleton, trimStart_space, h.flags.noLead.trimStart_eq]

theorem split_rest_ne_nil (h : s.Plain) (hrest : s.rest ≠ []) : split s.rest ≠ [] := fun hnil =>
  hrest (h.flags.noLead.eq_nil_of_blank (split_eq_nil_iff.mp hnil))

theorem spacedValues_eq_nil_iff (h : s.Plain) : spacedValues s = [] ↔ s.lineValues = [] := by
  rcases lineValues_cases h.keyword with ⟨-, hvalues⟩ | ⟨hrest, -, hvalues⟩ | ⟨hrest, -, hvalues⟩
  · simp [spacedValues, hvalues, trimStart]
  · simp [h.spacedValues_of_takesText hvalues, hvalues, hrest]
  · have hsplit := h.split_rest_ne_nil hrest
    rw [hvalues]
    refine iff_of_false (fun hnil => hsplit ?_) hsplit
    rw [← split_spacedValues hvalues, hnil, split_eq_nil_iff]
    simp [Blank]

theorem flags_spacedValues (h : s.Plain) : Flags s.flags (spacedValues s) := by
  refine ⟨h.flags.separable, h.flags.isFlag, ?_, noLead_trimStart _, ?_⟩
  · rcases lineValues_cases h.keyword with ⟨-, hvalues⟩ | ⟨-, -, hvalues⟩ | ⟨-, -, hvalues⟩
    · simp [spacedValues, hvalues, NoFlag, trimStart, next?]
    · rw [h.spacedValues_of_takesText hvalues]
      exact h.flags.noFlag
    · rw [noFlag_iff_split, split_spacedValues hvalues, ← noFlag_iff_split]
      exact h.flags.noFlag
  · intro hne
    apply h.flags.closed
    rintro hrest
    apply hne
    simp [spacedValues, lineValues_eq h.keyword, hrest, trimStart]

theorem spanFlags_of_header (h : s.Plain) (ht : t.text = s.header) :
    t.flags = s.flags ∧ t.rest = spacedValues s := by
  have hafter : afterFirstWord t.text =
      trimStart (s.flags.flatMap (' ' :: ·) ++ s.lineValues.flatMap (' ' :: ·)) := by
    rw [ht, ← List.flatMap_append]
    exact afterFirstWord_append h.trimmed_header h.isSpace_of_mem_upper head?_spaced
  have hspan := spanFlags_spaced h.flags_spacedValues head?_spaced fun hnil => by
    rw [h.spacedValues_eq_nil_iff.mp hnil]
    rfl
  rw [Statement.flags, Statement.rest, hafter, hspan]
  exact ⟨rfl, rfl⟩

theorem flags_of_header (h : s.Plain) (ht : t.text = s.header) : t.flags = s.flags :=
  (h.spanFlags_of_header ht).1

theorem lineValues_of_header (h : s.Plain) (ht : t.text = s.header) :
    t.lineValues = s.lineValues := by
  have hkeyword := h.keyword?_of_header ht
  have hrest := (h.spanFlags_of_header ht).2
  have ht' : t.keyword? ≠ some .entrypoint := by rw [hkeyword]; exact h.keyword
  rw [lineValues_eq ht', hrest, hkeyword]
  rcases lineValues_cases h.keyword with
    ⟨-, hvalues⟩ | ⟨hne, htakes, hvalues⟩ | ⟨hne, htakes, hvalues⟩
  · rw [if_pos (h.spacedValues_eq_nil_iff.mpr hvalues), hvalues]
  · rw [h.spacedValues_of_takesText hvalues, if_neg hne, if_pos htakes, hvalues]
  · have hnil : spacedValues s ≠ [] := fun hnil => h.split_rest_ne_nil hne (by
      rw [← hvalues, h.spacedValues_eq_nil_iff.mp hnil])
    rw [if_neg hnil, htakes, split_spacedValues hvalues, hvalues]
    rfl

/-- A header opens the heredocs that the text of the statement opens. -/
theorem openedBy_header (h : s.Plain) : Heredoc.openedBy s.header = Heredoc.openedBy s.text := by
  have hname : firstWord s.header = upper s.name :=
    h.name_of_header (t := { s with text := s.header }) rfl
  have hno (word : Text) (hword : Text.isAlphanum word) : Heredoc.scan word = [] :=
    Heredoc.scan_of_not_mem fun hmem => absurd ((isAlphanum_iff.mp hword).2 _ hmem) (by decide)
  have hheader : Heredoc.scan s.header = (s.flags ++ s.lineValues).flatMap Heredoc.scan := by
    rw [header, ← Heredoc.scan_spaced]
    cases hargs : s.flags ++ s.lineValues with
    | nil => simpa [Heredoc.scan] using hno _ (isAlphanum_upper h.isAlphanum)
    | cons a args =>
      rw [List.flatMap_cons, List.cons_append, Heredoc.scan_append_space (by decide),
        hno _ (isAlphanum_upper h.isAlphanum), Heredoc.scan_cons_of_ne (by decide)]
      rfl
  have hvalues : s.lineValues.flatMap Heredoc.scan = Heredoc.scan s.rest := by
    rcases lineValues_cases h.keyword with ⟨hrest, hvalues⟩ | ⟨-, -, hvalues⟩ | ⟨-, -, hvalues⟩
    · rw [hvalues, hrest]
      rfl
    · rw [hvalues, List.flatMap_singleton]
    · rw [hvalues, Heredoc.scan_split]
  have htext : Heredoc.scan s.text = Heredoc.scan (afterFirstWord s.text) := by
    obtain ⟨sep, hsep, htext, hne⟩ := exists_firstWord h.trimmed
    calc Heredoc.scan s.text
        = Heredoc.scan (firstWord s.text ++ (sep ++ afterFirstWord s.text)) := by rw [← htext]
      _ = Heredoc.scan (firstWord s.text) ++ Heredoc.scan (afterFirstWord s.text) :=
        Heredoc.scan_append_blank hsep hne
      _ = Heredoc.scan (afterFirstWord s.text) := by
        rw [hno (firstWord s.text) h.isAlphanum, List.nil_append]
  rw [Heredoc.openedBy, Heredoc.openedBy, hname, Keyword.ofName?_upper h.isAlphanum, hheader, htext,
    List.flatMap_append, hvalues, ← Heredoc.scan_spanFlags (afterFirstWord s.text)]
  rfl

end Plain

end Dockerfile.Statement
