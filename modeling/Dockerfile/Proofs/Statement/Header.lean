import Dockerfile.Proofs.Heredoc.Scan
import Dockerfile.Proofs.Reading
import Dockerfile.Proofs.Statement.Span
import Dockerfile.Proofs.Text.Case
import Dockerfile.Proofs.Text.Word

/-!
# The line that an instruction is written on

* `Statement.header`: keyword, flags and values with single spaces between them.
* `Statement.render_toInstruction`: an instruction is written as its header, and below it the lines
  of its heredocs, if a value stands on the header line.
* `Statement.lineFeeds_render`: the lines that it takes.
-/

namespace Dockerfile.Statement

open Text Argument

variable {s t : Statement} {c : Char}

/-- The line that the instruction in a statement is written on, without heredocs. -/
def header (s : Statement) : Text :=
  upper s.name ++ (s.flags ++ s.lineValues).flatMap (' ' :: ·)

/-! ## Writing -/

theorem lineValues_eq (h : s.keyword? ≠ some .entrypoint) :
    s.lineValues =
      if s.rest = [] then [] else if takesText s.keyword? then [s.rest] else split s.rest := by
  have hbracket : s.isBracketed = false := by simp [isBracketed, h]
  simp [lineValues, hbracket]

theorem lineValues_cases (h : s.keyword? ≠ some .entrypoint) :
    (s.rest = [] ∧ s.lineValues = []) ∨
      (s.rest ≠ [] ∧ takesText s.keyword? = true ∧ s.lineValues = [s.rest]) ∨
      (s.rest ≠ [] ∧ takesText s.keyword? = false ∧ s.lineValues = split s.rest) := by
  rw [lineValues_eq h]
  by_cases hrest : s.rest = []
  · simp [hrest]
  · cases takesText s.keyword? <;> simp [hrest]

/-- A heredoc body stands below the last value, or takes its place. -/
theorem flatMap_appendBody (body : Text) (values : List Text) :
    (appendBody body values).flatMap (' ' :: ·) =
      values.flatMap (' ' :: ·) ++ (if values = [] then ' ' else '\n') :: body := by
  fun_induction appendBody body values with
  | case1 => simp
  | case2 value => simp
  | case3 value next values ih =>
    rw [List.flatMap_cons, ih]
    simp

theorem render_toInstruction (h : s.keyword? ≠ some .entrypoint) :
    s.toInstruction.render = s.header ++
      if s.body = [] then []
      else (if s.lineValues = [] then ' ' else '\n') :: unlines s.body := by
  have harguments : s.toInstruction.arguments = s.values.flatMap (' ' :: ·) := by
    have hkeyword : s.toInstruction.keyword? ≠ some .entrypoint := h
    have hsame : s.toInstruction.values = s.values := rfl
    rw [Instruction.arguments, if_neg hkeyword, hsame]
    split
    · rename_i hvalues
      rw [hvalues]
      rfl
    · rfl
  have hvalues : s.values.flatMap (' ' :: ·) = s.lineValues.flatMap (' ' :: ·) ++
      if s.body = [] then [] else (if s.lineValues = [] then ' ' else '\n') :: unlines s.body := by
    by_cases hbody : s.body = []
    · simp [values, hbody]
    · simp only [values, hbody, if_false, flatMap_appendBody]
  rw [Instruction.render, harguments, hvalues, header, List.flatMap_append]
  simp only [List.append_assoc, toInstruction]

/-! ## Characters -/

theorem mem_of_mem_args :
    (∀ f ∈ s.flags, ∀ c ∈ f, c ∈ s.text) ∧ ∀ c ∈ s.rest, c ∈ s.text :=
  ⟨fun f hf c hc => mem_of_mem_afterFirstWord (mem_of_mem_spanFlags.1 f hf c hc),
    fun _ hc => mem_of_mem_afterFirstWord (mem_of_mem_spanFlags.2 _ hc)⟩

theorem mem_of_mem_lineValues (h : s.keyword? ≠ some .entrypoint) {v : Text}
    (hv : v ∈ s.lineValues) : ∀ c ∈ v, c ∈ s.text := by
  intro c hc
  apply mem_of_mem_args.2
  rw [lineValues_eq h] at hv
  split at hv
  · cases hv
  · split at hv
    · rwa [List.mem_singleton.mp hv] at hc
    · exact mem_of_mem_split hv c hc

/-- A header consists of the characters of the text, spaces, and letters and digits. -/
theorem header_chars {P : Char → Prop} (hspace : P ' ') (halnum : ∀ c : Char, c.isAlphanum → P c)
    (hname : isAlphanum s.name) (h : s.keyword? ≠ some .entrypoint) (htext : ∀ c ∈ s.text, P c) :
    ∀ c ∈ s.header, P c := by
  intro c hc
  rcases List.mem_append.mp hc with hc | hc
  · exact halnum c ((isAlphanum_iff.mp (isAlphanum_upper hname)).2 c hc)
  · obtain ⟨a, ha, hc⟩ := List.mem_flatMap.mp hc
    rcases List.mem_cons.mp hc with rfl | hc
    · exact hspace
    · rcases List.mem_append.mp ha with ha | ha
      · exact htext c (mem_of_mem_args.1 a ha c hc)
      · exact htext c (mem_of_mem_lineValues h ha c hc)

theorem lineFeed_not_mem_header (hname : isAlphanum s.name) (h : s.keyword? ≠ some .entrypoint)
    (hchars : s.Chars (· ≠ '\n')) : '\n' ∉ s.header := by
  intro hmem
  exact header_chars (P := (· ≠ '\n')) (by decide) (fun c hc => by rintro rfl; cases hc) hname h
    hchars.1 _ hmem rfl

/-- An instruction has a line feed for each line of its heredocs, except for the first if that one
stands on the line of the keyword. -/
theorem lineFeeds_render (hname : isAlphanum s.name) (h : s.keyword? ≠ some .entrypoint)
    (hchars : s.Chars (· ≠ '\n')) :
    lineFeeds s.toInstruction.render =
      if s.lineValues = [] then s.body.length - 1 else s.body.length := by
  have hheader : lineFeeds s.header = 0 :=
    lineFeeds_eq_zero_iff.mpr (lineFeed_not_mem_header hname h hchars)
  have hbody : lineFeeds (unlines s.body) = s.body.length - 1 :=
    lineFeeds_unlines fun l hl hmem => hchars.2 l hl _ hmem rfl
  rw [render_toInstruction h, lineFeeds_append, hheader]
  by_cases hnil : s.body = []
  · simp [hnil, lineFeeds]
  · have hpos := List.length_pos_iff.mpr hnil
    rw [if_neg hnil]
    split
    · rw [← List.singleton_append, lineFeeds_append, hbody]
      simp [lineFeeds]
    · rw [← List.singleton_append, lineFeeds_append, hbody]
      simp only [lineFeeds, List.count_singleton_self]
      omega

end Dockerfile.Statement
