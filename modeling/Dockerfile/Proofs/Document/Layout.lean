import Dockerfile.Document.Layout
import Dockerfile.Proofs.Statement.Header

/-!
# The line cursor

Where the instructions of a text are written, as far as the line cursor decides it.

* `Layout.cursor`, `Layout.render_append`: documents are written in portions.
* `Layout.next_collapseToEnd`, `Layout.next_skipSpan`: the cursor after one instruction.
* `Layout.render_set`: an instruction in the place of another one with the same lines and text.
* `Layout.Fits`, `Document.fits_of_parse`: the instructions that the cursor never goes past. Those
  of a text without entry points are.
-/

namespace Dockerfile

/-- The instruction covers at least one source line, and takes no more lines when it is written. -/
structure Instruction.Spanned (i : Instruction) : Prop where
  one_le_first : 1 ≤ i.first
  first_add_le_last : i.first + Text.lineFeeds i.render ≤ i.last

/-- The source lines below the first one that are not written. -/
def Instruction.unwritten (i : Instruction) : Nat := i.last - i.first - Text.lineFeeds i.render

theorem Instruction.Spanned.add_unwritten {i : Instruction} (h : i.Spanned) :
    i.first + Text.lineFeeds i.render + i.unwritten = i.last := by
  have := h.first_add_le_last
  rw [unwritten]
  omega

theorem Continuation.advance_congr (c : Continuation) {i j : Instruction} {line written : Nat}
    (hfirst : j.first = i.first) (hlast : j.last = i.last) :
    c.advance j line written = c.advance i line written := by
  cases c <;> simp only [advance, hfirst, hlast]

namespace Layout

variable {c : Continuation} {line : Nat} {i : Instruction} {is js : List Instruction}

/-- The line cursor after instructions that are reached with the cursor at `line`. -/
def cursor (c : Continuation) (line : Nat) (is : List Instruction) : Nat := is.foldl (next c) line

theorem render_append (c : Continuation) (line : Nat) (is js : List Instruction) :
    render c line (is ++ js) = render c line is ++ render c (cursor c line is) js := by
  induction is generalizing line with
  | nil => rfl
  | cons i is ih =>
    rw [List.cons_append, render_cons, render_cons, ih, List.append_assoc]
    rfl

/-! ## One instruction -/

theorem next_collapseToEnd (h : i.Spanned) (hline : line ≤ i.first) :
    next .collapseToEnd line i = i.last := by
  have := h.first_add_le_last
  simp only [next, Continuation.advance]
  omega

/-- The cursor stops at the last line that is written, or one line past the source. -/
theorem next_skipSpan (h : i.Spanned) (hline : line ≤ i.first) :
    next .skipSpan line i = if 1 < i.unwritten then i.last + 1 else i.last - i.unwritten := by
  have hlast := h.add_unwritten
  have hspan : i.last - i.first - Text.lineFeeds i.render = i.unwritten := rfl
  simp only [next, Continuation.advance, hspan]
  split <;> omega

/-- An instruction that is written on all its source lines leaves the cursor on the last. -/
theorem next_of_unwritten_eq_zero (h : i.Spanned) (hi : i.unwritten = 0) (hline : line ≤ i.first) :
    next c line i = i.last := by
  cases c with
  | skipSpan => simp [next_skipSpan h hline, hi]
  | collapseToEnd => exact next_collapseToEnd h hline

theorem next_le (h : i.Spanned) (hline : line ≤ i.first) : next c line i ≤ i.last + 1 := by
  cases c with
  | skipSpan =>
    rw [next_skipSpan h hline]
    split <;> omega
  | collapseToEnd =>
    rw [next_collapseToEnd h hline]
    exact Nat.le_succ _

/-! ## All instructions -/

/-- The cursor depends on the lines of an instruction and on the line feeds that it is written with. -/
theorem next_congr {j : Instruction} (hfeeds : Text.lineFeeds j.render = Text.lineFeeds i.render)
    (hfirst : j.first = i.first) (hlast : j.last = i.last) : next c line j = next c line i := by
  simp only [next, hfeeds, hfirst, c.advance_congr hfirst hlast]

/-- Only the text and the lines of an instruction matter. -/
theorem render_set {k : Nat} {j : Instruction} (hi : is[k]? = some i) (hrender : j.render = i.render)
    (hfirst : j.first = i.first) (hlast : j.last = i.last) :
    render c line (is.set k j) = render c line is := by
  obtain ⟨hlt, hget⟩ := List.getElem?_eq_some_iff.mp hi
  have hself : is.set k i = is := by rw [← hget, List.set_getElem_self]
  have hnext (line : Nat) : next c line j = next c line i :=
    next_congr (congrArg Text.lineFeeds hrender) hfirst hlast
  calc render c line (is.set k j)
    _ = render c line (is.set k i) := by
      simp only [List.set_eq_take_append_cons_drop, if_pos hlt, render_append, render_cons, hnext,
        place, hrender, hfirst]
    _ = render c line is := by rw [hself]

/-- Instructions on disjoint source lines in order, none of them before `line`. -/
structure Fits (line : Nat) (is : List Instruction) : Prop where
  le_first : ∀ i ∈ is, line ≤ i.first
  spanned : ∀ i ∈ is, i.Spanned
  ordered : is.Pairwise fun i j => i.last < j.first

theorem Fits.next (h : Fits line (i :: is)) : Fits (next c line i) is := by
  obtain ⟨hbefore, hordered⟩ := List.pairwise_cons.mp h.ordered
  have hi := next_le (c := c) (h.spanned i List.mem_cons_self) (h.le_first i List.mem_cons_self)
  exact ⟨fun j hj => Nat.le_trans hi (hbefore j hj),
    fun j hj => h.spanned j (List.mem_cons_of_mem _ hj), hordered⟩

/-- Another instruction can stand on the lines of one of them. -/
theorem Fits.set {k : Nat} {j : Instruction} (h : Fits line is) (hi : is[k]? = some i)
    (hj : j.Spanned) (hfirst : j.first = i.first) (hlast : j.last = i.last) :
    Fits line (is.set k j) := by
  obtain ⟨hlt, rfl⟩ := List.getElem?_eq_some_iff.mp hi
  refine ⟨fun a ha => ?_, fun a ha => ?_, ?_⟩
  · rcases List.mem_or_eq_of_mem_set ha with ha | rfl
    · exact h.le_first a ha
    · rw [hfirst]
      exact h.le_first _ (List.getElem_mem hlt)
  · rcases List.mem_or_eq_of_mem_set ha with ha | rfl
    · exact h.spanned a ha
    · exact hj
  · let lines (i : Instruction) : Nat × Nat := (i.first, i.last)
    have hlines : (is.set k j).map lines = is.map lines := by
      have hk : k < (is.map lines).length := by simpa using hlt
      have hsame : lines j = (is.map lines)[k] := by simp [lines, hfirst, hlast]
      rw [List.map_set, hsame, List.set_getElem_self]
    have hordered : (is.map lines).Pairwise fun p q => p.2 < q.1 :=
      List.pairwise_map.mpr h.ordered
    rw [← hlines] at hordered
    exact List.pairwise_map.mp hordered

/-- The cursor does not go past the instructions that are still to be written. -/
theorem Fits.cursor (h : Fits line (is ++ js)) : Fits (cursor c line is) js := by
  induction is generalizing line with
  | nil => exact h
  | cons i is ih => exact ih h.next

end Layout

/-- An instruction other than an entry point takes no more lines than its source. -/
theorem Statement.spanned_toInstruction {s : Statement} (hs : s.Spanned)
    (hname : Text.isAlphanum s.name) (hentry : s.keyword? ≠ some .entrypoint)
    (hchars : s.Chars (· ≠ '\n')) : s.toInstruction.Spanned := by
  have hlines := Statement.lineFeeds_render hname hentry hchars
  refine ⟨hs.one_le_first, ?_⟩
  have := hs.first_add_le_last
  show s.first + _ ≤ s.last
  split at hlines <;> omega

namespace Document

/-- Without entry points, no instruction takes more lines than its source. -/
theorem spanned_of_parse {text : Text} {d : Document} (h : (parse text).value = .ok d)
    (hentry : ∀ i ∈ d.instructions, i.keyword? ≠ some .entrypoint) :
    (∀ i ∈ d.instructions, i.Spanned) ∧ d.instructions.Pairwise fun i j => i.last < j.first := by
  obtain ⟨escape, ss, -, hss, -, hnames, his⟩ := parse_eq_ok.mp h
  obtain ⟨hordered, hspanned⟩ := Statement.ofLines_spans hss
  have hchars := Statement.ofLines_chars (P := (· ≠ '\n')) (by decide)
    (fun l hl c hc => (Text.mem_of_mem_lines hl hc).2) hss
  rw [his] at hentry ⊢
  constructor
  · intro i hi
    obtain ⟨s, hs, rfl⟩ := List.mem_map.mp hi
    exact Statement.spanned_toInstruction (hspanned s hs).1 (hnames s hs) (hentry _ hi)
      (hchars s hs)
  · rw [List.pairwise_map]
    exact hordered

theorem fits_of_parse {text : Text} {d : Document} (h : (parse text).value = .ok d)
    (hentry : ∀ i ∈ d.instructions, i.keyword? ≠ some .entrypoint) :
    Layout.Fits 1 d.instructions := by
  obtain ⟨hspanned, hordered⟩ := spanned_of_parse h hentry
  exact ⟨fun i hi => (hspanned i hi).one_le_first, hspanned, hordered⟩

end Document

end Dockerfile
