import Dockerfile.Proofs.Document.Layout

/-!
# Line feeds between instructions

* `Document.text_eq_gap`: what stands between two neighbours in the text of a document, and when
  that is nothing.
* `Document.exists_glued`: a text with two instructions that is written on one line.
-/

namespace Dockerfile

namespace Layout

/-- The text up to an instruction ends with it, and the next one follows below a gap. -/
theorem render_neighbours (c : Continuation) (line : Nat) (before after : List Instruction)
    (i j : Instruction) :
    ∃ start rest, render c line (before ++ [i]) = start ++ i.render ∧
      render c line (before ++ i :: j :: after) =
        start ++ i.render ++
          List.replicate (j.first - next c (cursor c line before) i) '\n' ++ j.render ++ rest := by
  refine ⟨render c line before ++ List.replicate (i.first - cursor c line before) '\n',
    render c (next c (next c (cursor c line before) i) j) after, ?_, ?_⟩
  · simp [render_append, place]
  · simp [render_append, place]

/-- Nothing stands between two neighbours if the first leaves more than one of its source lines
unwritten and the second starts right behind it. -/
theorem gap_eq_zero_iff {line : Nat} {i j : Instruction} {after : List Instruction}
    (h : Fits line (i :: j :: after)) :
    j.first - next .skipSpan line i = 0 ↔ j.first = i.last + 1 ∧ 1 < i.unwritten := by
  have hlt : i.last < j.first := (List.pairwise_cons.mp h.ordered).1 j List.mem_cons_self
  rw [next_skipSpan (h.spanned i List.mem_cons_self) (h.le_first i List.mem_cons_self)]
  split <;> omega

end Layout

namespace Document

/-- Between two neighbours in the text of a document stand line feeds only, and at least one of them
unless the first leaves more than one of its source lines unwritten and the second starts right
behind it. -/
theorem text_eq_gap {text : Text} {d : Document} {i j : Instruction}
    {before after : List Instruction} (h : (parse text).value = .ok d)
    (hentry : ∀ i ∈ d.instructions, i.keyword? ≠ some .entrypoint)
    (hd : d.instructions = before ++ i :: j :: after) :
    ∃ start gap rest, (Document.mk (before ++ [i])).text {} = start ++ i.render ∧
      d.text {} = start ++ i.render ++ List.replicate gap '\n' ++ j.render ++ rest ∧
      (gap = 0 ↔ j.first = i.last + 1 ∧ 1 < i.unwritten) := by
  have hfits := fits_of_parse h hentry
  rw [hd] at hfits
  obtain ⟨start, rest, hstart, hrest⟩ :=
    Layout.render_neighbours .skipSpan 1 before after i j
  refine ⟨start, _, rest, hstart, ?_, Layout.gap_eq_zero_iff (hfits.cursor (c := .skipSpan))⟩
  show Layout.render .skipSpan 1 d.instructions = _
  rw [hd]
  exact hrest

/-- A command on three lines, and another one behind it. -/
def gluedText : Text := "RUN a \\\n b \\\n c\nUSER x".toList

/-- The instructions of `gluedText`. -/
def glued : Document :=
  { instructions :=
      [{ name := "RUN".toList, values := ["a b c".toList], first := 1, last := 3,
         source := "RUN a b c".toList },
       { name := "USER".toList, values := ["x".toList], first := 4, last := 4,
         source := "USER x".toList }] }

theorem text_eq_gap_glued :
    ∃ start gap rest,
      (Document.mk (glued.instructions.take 1)).text {} = start ++ "RUN a b c".toList ∧
      glued.text {} =
        start ++ "RUN a b c".toList ++ List.replicate gap '\n' ++ "USER x".toList ++ rest ∧
      gap = 0 := by
  have h : (parse gluedText).value = .ok glued := by decide +kernel
  have hd : glued.instructions = [] ++ _ :: _ :: [] := rfl
  obtain ⟨start, gap, rest, hstart, htext, hgap⟩ := text_eq_gap h (by decide +kernel) hd
  exact ⟨start, gap, rest, hstart, htext, hgap.mpr (by decide)⟩

/-- Two neighbours may be written without a line feed between them. -/
theorem exists_glued :
    ∃ text d, (parse text).value = .ok d ∧
      (∀ i ∈ d.instructions, i.keyword? ≠ some .entrypoint) ∧
      ∃ before i j after, d.instructions = before ++ i :: j :: after ∧
        ¬ ∃ start gap rest, 0 < gap ∧
          d.text {} = start ++ i.render ++ List.replicate gap '\n' ++ j.render ++ rest := by
  refine ⟨gluedText, glued, by decide +kernel, by decide +kernel, [], _, _, [], rfl, ?_⟩
  rintro ⟨start, gap, rest, hgap, htext⟩
  have hmem : '\n' ∈ glued.text {} := by
    rw [htext]
    simp [Nat.ne_of_gt hgap]
  exact absurd hmem (by decide +kernel)

end Document

end Dockerfile
