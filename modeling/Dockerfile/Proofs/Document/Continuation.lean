import Dockerfile.Proofs.Document.Layout

/-!
# The two policies for continued instructions

The policies put the cursor on different lines behind an instruction that leaves some of its source
lines unwritten, and only behind such a one. The instructions may stand in any order and on any
lines: wherever the cursor comes from, it does not stop before the last line that is written.

* `Layout.next_skipSpan_eq_iff`: the instructions behind which the cursor is the same.
* `Document.render_skipSpan_eq_collapseToEnd`: without other instructions the texts are the same.
* `Document.exists_text_eq_append`: with others, the texts are the same up to the first of them.
-/

namespace Dockerfile

open Text

theorem Instruction.unwritten_eq_zero_iff {i : Instruction} :
    i.unwritten = 0 ↔ i.last ≤ i.first + lineFeeds i.render := by
  rw [unwritten]
  omega

namespace Layout

variable {line : Nat} {i : Instruction} {is : List Instruction}

/-- Both policies leave the cursor where the text of the instruction ends. -/
theorem next_of_unwritten (c : Continuation) (line : Nat) (h : i.unwritten = 0) :
    next c line i = max line i.first + lineFeeds i.render := by
  have hspan : i.last - i.first - lineFeeds i.render = 0 := h
  cases c with
  | skipSpan => simp [next, Continuation.advance, hspan]
  | collapseToEnd =>
    have hlast := Instruction.unwritten_eq_zero_iff.mp h
    simp only [next, Continuation.advance]
    omega

/-- Behind an instruction that leaves lines unwritten, the cursors differ if they came from its
first line. -/
theorem next_skipSpan_eq_iff :
    (∀ line, next .skipSpan line i = next .collapseToEnd line i) ↔ i.unwritten = 0 := by
  refine ⟨fun h => ?_, fun h line => by rw [next_of_unwritten _ _ h, next_of_unwritten _ _ h]⟩
  have hfirst := h i.first
  have hspan : i.last - i.first - lineFeeds i.render = i.unwritten := rfl
  simp only [next, Continuation.advance, hspan] at hfirst
  split at hfirst <;> omega

theorem cursor_of_unwritten (c : Continuation) (h : ∀ i ∈ is, i.unwritten = 0) :
    cursor c line is = cursor .skipSpan line is := by
  induction is generalizing line with
  | nil => rfl
  | cons i is ih =>
    obtain ⟨hi, his⟩ := List.forall_mem_cons.mp h
    show cursor c (next c line i) is = cursor .skipSpan (next .skipSpan line i) is
    rw [next_of_unwritten _ _ hi, next_of_unwritten _ _ hi, ih his]

theorem render_of_unwritten (c : Continuation) (h : ∀ i ∈ is, i.unwritten = 0) :
    render c line is = render .skipSpan line is := by
  induction is generalizing line with
  | nil => rfl
  | cons i is ih =>
    obtain ⟨hi, his⟩ := List.forall_mem_cons.mp h
    rw [render_cons, render_cons, next_of_unwritten _ _ hi, next_of_unwritten _ _ hi, ih his]

end Layout

namespace Document

/-- Where no instruction leaves source lines unwritten, both policies write the same. -/
theorem render_skipSpan_eq_collapseToEnd (d : Document)
    (h : ∀ i ∈ d.instructions, i.last ≤ i.first + lineFeeds i.render) :
    d.render { continuation := .skipSpan } = d.render { continuation := .collapseToEnd } := by
  have hunwritten (i : Instruction) (hi : i ∈ d.instructions) : i.unwritten = 0 :=
    Instruction.unwritten_eq_zero_iff.mpr (h i hi)
  have htext : d.text { continuation := .collapseToEnd } = d.text { continuation := .skipSpan } :=
    Layout.render_of_unwritten .collapseToEnd hunwritten
  simp only [render, htext]

/-- Instructions out of order, on lines that overlap, on no line, and with a last line above the
first one. A heredoc and an entry point are written on several lines. -/
def scattered : Document :=
  { instructions :=
    [{ name := "from".toList, values := ["a".toList], first := 6, last := 6 },
      { name := "run".toList, values := ["<<E\nb\nE".toList], first := 2, last := 4 },
      { name := "user".toList, values := ["c".toList] },
      { name := "entrypoint".toList, values := ["d\n".toList, "e".toList], first := 3, last := 4 },
      { name := "user".toList, values := ["f".toList], first := 14, last := 12 }] }

theorem render_skipSpan_scattered :
    (∀ i ∈ scattered.instructions, i.last ≤ i.first + lineFeeds i.render) ∧
      scattered.render { continuation := .skipSpan } =
        scattered.render { continuation := .collapseToEnd } :=
  have h : ∀ i ∈ scattered.instructions, i.last ≤ i.first + lineFeeds i.render := by
    decide +kernel
  ⟨h, render_skipSpan_eq_collapseToEnd scattered h⟩

/-- The policy makes no difference up to the first instruction that leaves lines unwritten, and in
the text of that one. -/
theorem exists_text_eq_append (options : RenderOptions) (i : Instruction)
    {is : List Instruction} (js : List Instruction) (h : ∀ i ∈ is, i.unwritten = 0) :
    ∃ rest, text { instructions := is ++ i :: js } options =
      text { instructions := is ++ [i] } {} ++ rest := by
  let line := Layout.cursor .skipSpan 1 is
  refine ⟨Layout.render options.continuation (Layout.next options.continuation line i) js, ?_⟩
  simp only [text, Layout.render_append, Layout.render_cons, Layout.render_nil, List.append_nil,
    Layout.render_of_unwritten options.continuation h,
    Layout.cursor_of_unwritten options.continuation h, List.append_assoc, line]

end Document

end Dockerfile
