import Dockerfile.Proofs.Document.Written

/-!
# Another image path

* `Argument.BareWord`: the image paths that stay one value wherever they are written.
* `Statement.Declares`: the statements of a `FROM` with an image path.
* `Statement.withImagePath`: such a statement with another path in its text.
* `Statement.Declares.fields_withImagePath`, `Statement.Declares.writable_withImagePath`: it has the
  same flags and the same further values, and can be written in place of the first one.
-/

namespace Dockerfile

namespace Argument

open Text

variable {t : Text}

/-- A word without quotes and backslashes that starts with a letter or a digit. -/
structure BareWord (t : Text) : Prop where
  bare : Bare t
  noSpace : ∀ c ∈ t, isSpace c = false
  head : ∃ c ∈ t.head?, c.isAlphanum

namespace BareWord

theorem ne_nil (h : BareWord t) : t ≠ [] := by
  rintro rfl
  obtain ⟨c, hc, -⟩ := h.head
  cases hc

theorem isArgument (h : BareWord t) : IsArgument t := h.bare.isArgument_iff.mpr ⟨h.ne_nil, h.noSpace⟩

theorem isFlag_eq (h : BareWord t) : isFlag t = false := by
  obtain ⟨c, hc, halnum⟩ := h.head
  cases t with
  | nil => cases hc
  | cons d t =>
    cases hc
    have hdash := ne_of_isAlphanum halnum (d := '-') (by decide)
    unfold isFlag
    split
    · rename_i heq
      exact absurd (List.cons.inj heq).1 hdash
    · rfl

/-- A word with another end. -/
theorem append {u v : Text} (h : BareWord (t ++ u)) (hne : t ≠ []) (hbare : Bare v)
    (hspace : ∀ c ∈ v, isSpace c = false) : BareWord (t ++ v) := by
  obtain ⟨hbare', hspace', hhead⟩ := h
  refine ⟨List.forall_mem_append.mpr ⟨(List.forall_mem_append.mp hbare').1, hbare⟩,
    List.forall_mem_append.mpr ⟨(List.forall_mem_append.mp hspace').1, hspace⟩, ?_⟩
  cases t with
  | nil => contradiction
  | cons c t => exact hhead

end BareWord

end Argument

namespace Statement

open Text Argument

variable {s : Statement} {before path : Text} {c : Char}

/-- A statement that is written as a `FROM` with this image path. -/
structure Declares (s : Statement) (path : Text) : Prop where
  writable : s.Writable
  keyword : s.keyword? = some .fromImage
  head : s.values.head? = some path

/-- The statement with another image path. -/
def withImagePath (s : Statement) (path : Text) : Statement :=
  { s with text := upper s.name ++ (s.flags ++ path :: s.lineValues.tail).flatMap (' ' :: ·) }

/-! ## The statement as it is -/

/-- A `FROM` opens no heredocs. -/
theorem openedBy_of_fromImage {text : Text} (h : Keyword.ofName? (firstWord text) = some .fromImage) :
    Heredoc.openedBy text = [] := by
  rw [Heredoc.openedBy, h]
  rfl

namespace Declares

theorem body_eq_nil (h : s.Declares before) : s.body = [] := by
  have hfilled := h.writable.complete.filled
  rwa [openedBy_of_fromImage h.keyword, Heredoc.filledBy_nil] at hfilled

theorem values_eq_lineValues (h : s.Declares before) : s.values = s.lineValues := by
  rw [values, if_pos h.body_eq_nil]

theorem lineValues_eq (h : s.Declares before) : s.lineValues = before :: s.lineValues.tail := by
  have hhead := h.head
  rw [h.values_eq_lineValues] at hhead
  obtain ⟨rest, hrest⟩ := List.head?_eq_some_iff.mp hhead
  rw [hrest, List.tail_cons]

theorem lineValues_eq_split (h : s.Declares before) :
    s.rest ≠ [] ∧ s.lineValues = split s.rest := by
  have htakes : takesText s.keyword? = false := by
    rw [h.keyword]
    rfl
  rcases lineValues_cases h.writable.plain.keyword with
    ⟨-, hvalues⟩ | ⟨-, htakes', -⟩ | ⟨hrest, -, hvalues⟩
  · have hcons := h.lineValues_eq
    rw [hvalues] at hcons
    cases hcons
  · rw [htakes] at htakes'
    cases htakes'
  · exact ⟨hrest, hvalues⟩

theorem separable (h : s.Declares before) : Separable (before :: s.lineValues.tail) := by
  rw [← h.lineValues_eq, h.lineValues_eq_split.2]
  exact separable_split _

theorem isArgument (h : s.Declares before) : IsArgument before :=
  h.separable.isArgument before List.mem_cons_self

/-! ## The statement with another path -/

/-- Only the path brings in other characters. -/
theorem mem_withImagePath (h : s.Declares before) (hc : c ∈ (s.withImagePath path).text) :
    c ∈ s.header ∨ c ∈ path := by
  rw [header, h.lineValues_eq]
  simp only [withImagePath, List.flatMap_append, List.flatMap_cons, List.mem_append,
    List.mem_cons] at hc ⊢
  grind

section

variable (h : s.Declares before) (hpath : BareWord path)

include h hpath

/-- It ends with the path, or as the statement was written. -/
theorem getLast?_withImagePath (hc : c ∈ (s.withImagePath path).text.getLast?) :
    c ∈ path ∨ c ∈ s.header.getLast? := by
  have hvalues := h.lineValues_eq
  have htext : (s.withImagePath path).text =
      upper s.name ++ (s.flags ++ path :: s.lineValues.tail).flatMap (' ' :: ·) := rfl
  rcases List.eq_nil_or_concat s.lineValues.tail with hnil | ⟨values, last, hlast⟩
  · rw [htext, hnil, getLast?_spaced hpath.ne_nil] at hc
    exact .inl (List.mem_of_getLast? hc)
  · have hne : last ≠ [] := (h.separable.isArgument last (by simp [hlast])).ne_nil
    rw [List.concat_eq_append] at hlast
    rw [hlast] at hvalues
    rw [htext, hlast, ← List.cons_append, ← List.append_assoc, getLast?_spaced hne] at hc
    rw [header, hvalues, ← List.cons_append, ← List.append_assoc, getLast?_spaced hne]
    exact .inr hc

theorem trimmed_withImagePath : Trimmed (s.withImagePath path).text := by
  constructor
  · refine NoLead.append (fun c hc => ?_) h.writable.plain.upper_ne_nil
    exact h.writable.plain.isSpace_of_mem_upper c (List.mem_of_mem_head? hc)
  · intro c hc
    rcases h.getLast?_withImagePath hpath hc with hc | hc
    · exact hpath.noSpace c hc
    · exact h.writable.plain.trimmed_header.2 c hc

theorem name_withImagePath : (s.withImagePath path).name = upper s.name :=
  firstWord_append (h.trimmed_withImagePath hpath) h.writable.plain.isSpace_of_mem_upper
    head?_spaced

theorem keyword?_withImagePath : (s.withImagePath path).keyword? = some .fromImage := by
  rw [keyword?, h.name_withImagePath hpath, Keyword.ofName?_upper h.writable.plain.isAlphanum]
  exact h.keyword

theorem split_withImagePath :
    split (trimStart ((path :: s.lineValues.tail).flatMap (' ' :: ·))) =
      path :: s.lineValues.tail := by
  obtain ⟨-, -, htail⟩ := separable_cons.mp h.separable
  rw [split_trimStart, split_spaced]
  exact separable_cons.mpr ⟨hpath.isArgument, fun _ => hpath.bare.closed, htail⟩

theorem trimStart_withImagePath_ne_nil :
    trimStart ((path :: s.lineValues.tail).flatMap (' ' :: ·)) ≠ [] := by
  intro hnil
  have hsplit := h.split_withImagePath hpath
  rw [hnil, split_nil] at hsplit
  cases hsplit

/-- The path ends the flags, as the value before it did. -/
theorem spanFlags_withImagePath :
    (s.withImagePath path).flags = s.flags ∧
      (s.withImagePath path).rest =
        trimStart ((path :: s.lineValues.tail).flatMap (' ' :: ·)) := by
  have hflags := h.writable.plain.flags
  have hafter : afterFirstWord (s.withImagePath path).text =
      trimStart (s.flags.flatMap (' ' :: ·) ++
        (path :: s.lineValues.tail).flatMap (' ' :: ·)) := by
    rw [← List.flatMap_append]
    exact afterFirstWord_append (h.trimmed_withImagePath hpath)
      h.writable.plain.isSpace_of_mem_upper head?_spaced
  have hread : Flags s.flags (trimStart ((path :: s.lineValues.tail).flatMap (' ' :: ·))) := by
    refine ⟨hflags.separable, hflags.isFlag, noFlag_iff_split.mpr ?_, noLead_trimStart _,
      fun _ => hflags.closed h.lineValues_eq_split.1⟩
    rw [h.split_withImagePath hpath]
    rintro _ ⟨⟩
    exact hpath.isFlag_eq
  have hspan := spanFlags_spaced hread head?_spaced fun hnil =>
    absurd hnil (h.trimStart_withImagePath_ne_nil hpath)
  rw [Statement.flags, Statement.rest, hafter, hspan]
  exact ⟨rfl, rfl⟩

theorem lineValues_withImagePath : (s.withImagePath path).lineValues = path :: s.lineValues.tail := by
  have hkeyword := h.keyword?_withImagePath hpath
  have hrest := (h.spanFlags_withImagePath hpath).2
  rw [Statement.lineValues_eq (by simp [hkeyword]), hrest,
    if_neg (h.trimStart_withImagePath_ne_nil hpath), hkeyword]
  exact h.split_withImagePath hpath

/-- Only the case of the keyword and the path change. -/
theorem fields_withImagePath :
    (s.withImagePath path).name = upper s.name ∧ (s.withImagePath path).flags = s.flags ∧
      (s.withImagePath path).values = path :: s.values.tail := by
  refine ⟨h.name_withImagePath hpath, (h.spanFlags_withImagePath hpath).1, ?_⟩
  rw [values, if_pos (show (s.withImagePath path).body = [] from h.body_eq_nil),
    h.lineValues_withImagePath hpath, h.values_eq_lineValues]

theorem writable_withImagePath : (s.withImagePath path).Writable := by
  have htrimmed := h.trimmed_withImagePath hpath
  have hkeyword := h.keyword?_withImagePath hpath
  have hbody : (s.withImagePath path).body = [] := h.body_eq_nil
  have hname : isAlphanum (s.withImagePath path).name := by
    rw [h.name_withImagePath hpath]
    exact isAlphanum_upper h.writable.plain.isAlphanum
  have hend : (s.withImagePath path).text.getLast? ≠ some defaultEscape := fun hlast => by
    rcases h.getLast?_withImagePath hpath hlast with hmem | hmem
    · exact (hpath.bare _ hmem).2.2 rfl
    · rcases h.writable.plain.getLast?_header hmem with hmem | hmem
      · exact h.writable.complete.getLast?_ne hmem
      · cases hmem
  have hfilled : Heredoc.FilledBy (Heredoc.openedBy (s.withImagePath path).text)
      (s.withImagePath path).body := by
    rw [openedBy_of_fromImage hkeyword, hbody]
    exact .done
  have hchars : ∀ c ∈ (s.withImagePath path).text, c ≠ '\n' ∧ c ≠ '\r' := fun c hc => by
    rcases h.mem_withImagePath hc with hc | hc
    · exact h.writable.header_chars c hc
    · have hspace := hpath.noSpace c hc
      constructor <;> rintro rfl <;> cases hspace
  exact ⟨⟨htrimmed, hname, by simp [hkeyword]⟩,
    ⟨htrimmed, by simp [withImagePath], hend, hfilled⟩, fun hne => absurd hbody hne, hchars,
    by simp [hbody]⟩

/-- It is written as the instruction with the other path. -/
theorem render_withImagePath :
    (s.withImagePath path).toInstruction.render =
      (s.toInstruction.withImagePath path).render := by
  obtain ⟨hname, hflags, hvalues⟩ := h.fields_withImagePath hpath
  have halnum : isAlphanum (s.toInstruction.withImagePath path).name := h.writable.plain.isAlphanum
  exact Instruction.render_of_fields halnum hname hflags hvalues

theorem spanned_withImagePath (hs : s.toInstruction.Spanned) :
    (s.withImagePath path).toInstruction.Spanned := by
  refine ⟨hs.one_le_first, ?_⟩
  rw [(h.writable_withImagePath hpath).lineFeeds_render,
    show (s.withImagePath path).body = [] from h.body_eq_nil]
  exact Nat.le_trans (Nat.le_add_right _ _) hs.first_add_le_last

end

end Declares

end Statement

end Dockerfile
