import Dockerfile.Proofs.Document.Collapse
import Dockerfile.Proofs.Document.Continuation

/-!
# The line cursor in 64 bits

The line cursor never goes back, so it stays in 64 bits if its last position does. Then every build
writes what counting without a bound gives. Behind `2 ^ 64` lines, a build that checks its line
numbers writes nothing, and one that does not goes on from a smaller number.

* `Layout.next?_of_lt`, `Layout.next?_stops`: the cursor after one instruction.
* `Document.text?_of_cursor_lt`, `Document.text?_stops`, `Document.text?_eq_none_iff`: what a build
  writes, and when it writes nothing.
* `Document.text?_of_ordered`, `Document.text?_of_parse`: the cursor stays in 64 bits if the
  instructions stand in order on lines that are not too far down, as those of a text do.
* `Document.text?_of_fits`, `Document.text?_of_unwritten`: it does so too if it is moved to the end
  of instructions that fit on their lines, or if no source lines are left unwritten and the text is
  not too long.
* `Layout.exists_render?_set`: an instruction in the place of another one with the same lines.
-/

namespace Dockerfile

open Text

namespace Overflow

variable {o : Overflow} {n : Nat}

theorem word_of_lt (h : n < UInt64.size) : o.word n = some n := if_pos h

theorem word_stops (h : UInt64.size ≤ n) : stops.word n = none := if_neg (Nat.not_lt.mpr h)

theorem word_wraps (n : Nat) : wraps.word n = some (n % UInt64.size) := by
  by_cases h : n < UInt64.size
  · rw [word_of_lt h, Nat.mod_eq_of_lt h]
  · exact if_neg h

end Overflow

theorem Continuation.le_advance (c : Continuation) (i : Instruction) (line written : Nat) :
    line ≤ c.advance i line written := by
  cases c with
  | skipSpan =>
    simp only [advance]
    split <;> omega
  | collapseToEnd => exact Nat.le_max_left _ _

namespace Layout

variable {o : Overflow} {c : Continuation} {line : Nat} {i : Instruction} {is : List Instruction}

/-! ## One instruction -/

/-- An instruction moves the cursor over its text first. -/
theorem max_add_le_next : max line i.first + lineFeeds i.render ≤ next c line i :=
  c.le_advance i _ _

theorem next?_of_lt (h : next c line i < UInt64.size) : next? o c line i = some (next c line i) := by
  have hwritten : max line i.first + lineFeeds i.render < UInt64.size :=
    Nat.lt_of_le_of_lt max_add_le_next h
  simp only [next?, Overflow.word_of_lt hwritten]
  exact Overflow.word_of_lt h

theorem next?_stops (h : UInt64.size ≤ next c line i) : next? .stops c line i = none := by
  by_cases hwritten : max line i.first + lineFeeds i.render < UInt64.size
  · simp only [next?, Overflow.word_of_lt hwritten]
    exact Overflow.word_stops h
  · simp only [next?, Overflow.word_stops (Nat.not_lt.mp hwritten)]
    rfl

theorem exists_next?_wraps (c : Continuation) (line : Nat) (i : Instruction) :
    ∃ after, next? .wraps c line i = some after := by
  simp [next?, Overflow.word_wraps]

/-! ## All instructions -/

theorem le_cursor : line ≤ cursor c line is := by
  induction is generalizing line with
  | nil => exact Nat.le_refl line
  | cons i is ih =>
    calc line
      _ ≤ max line i.first + lineFeeds i.render := by omega
      _ ≤ next c line i := max_add_le_next
      _ ≤ cursor c line (i :: is) := ih

/-- Below `2 ^ 64` lines, every build writes what counting without a bound gives. -/
theorem render?_of_lt (h : cursor c line is < UInt64.size) :
    render? o c line is = some (render c line is) := by
  induction is generalizing line with
  | nil => rfl
  | cons i is ih =>
    have hnext : next c line i < UInt64.size := Nat.lt_of_le_of_lt le_cursor h
    rw [render?_cons, next?_of_lt hnext, Option.bind_some, ih h]
    rfl

/-- Behind `2 ^ 64` lines, a build that checks its line numbers writes nothing. -/
theorem render?_stops_of_le (hline : line < UInt64.size) (h : UInt64.size ≤ cursor c line is) :
    render? .stops c line is = none := by
  induction is generalizing line with
  | nil => exact absurd hline (Nat.not_lt.mpr h)
  | cons i is ih =>
    rw [render?_cons]
    by_cases hnext : next c line i < UInt64.size
    · rw [next?_of_lt hnext, Option.bind_some, ih hnext h]
      rfl
    · rw [next?_stops (Nat.not_lt.mp hnext)]
      rfl

/-- A build that does not check its line numbers always writes something. -/
theorem exists_render?_wraps (c : Continuation) (line : Nat) (is : List Instruction) :
    ∃ text, render? .wraps c line is = some text := by
  induction is generalizing line with
  | nil => exact ⟨[], rfl⟩
  | cons i is ih =>
    obtain ⟨after, hafter⟩ := exists_next?_wraps c line i
    obtain ⟨text, htext⟩ := ih after
    exact ⟨_, by rw [render?_cons, hafter, Option.bind_some, htext]; rfl⟩

/-- The cursor depends on the lines of an instruction and on the line feeds that it is written with. -/
theorem next?_congr {j : Instruction} (hfeeds : lineFeeds j.render = lineFeeds i.render)
    (hfirst : j.first = i.first) (hlast : j.last = i.last) :
    next? o c line j = next? o c line i := by
  simp only [next?, hfeeds, hfirst, c.advance_congr hfirst hlast]

/-- For all instructions with the lines of one of them and its number of line feeds, a build writes
nothing, or the same around the instruction. -/
theorem exists_render?_set (o : Overflow) (c : Continuation) (line : Nat) {k : Nat}
    (hi : is[k]? = some i) :
    (∀ j : Instruction, j.first = i.first → j.last = i.last →
      lineFeeds j.render = lineFeeds i.render → render? o c line (is.set k j) = none) ∨
    ∃ above gap rest, render? o c line (is.take k) = some above ∧
      ∀ j : Instruction, j.first = i.first → j.last = i.last →
        lineFeeds j.render = lineFeeds i.render →
        render? o c line (is.set k j) =
          some (above ++ List.replicate gap '\n' ++ j.render ++ rest) := by
  induction is generalizing line k with
  | nil => cases hi
  | cons a is ih =>
    cases k with
    | zero =>
      cases hi
      cases hrest : (next? o c line i).bind fun after => render? o c after is with
      | none =>
        left
        intro j hfirst hlast hfeeds
        rw [List.set_cons_zero, render?_cons, next?_congr hfeeds hfirst hlast, hrest]
        rfl
      | some rest =>
        refine .inr ⟨[], i.first - line, rest, rfl, fun j hfirst hlast hfeeds => ?_⟩
        rw [List.set_cons_zero, render?_cons, next?_congr hfeeds hfirst hlast, hrest, hfirst]
        rfl
    | succ k =>
      simp only [List.set_cons_succ, List.take_succ_cons, render?_cons]
      cases hnext : next? o c line a with
      | none => exact .inl fun _ _ _ _ => rfl
      | some after =>
        simp only [Option.bind_some]
        rcases ih after hi with hnone | ⟨above, gap, rest, habove, hset⟩
        · exact .inl fun j hfirst hlast hfeeds => by rw [hnone j hfirst hlast hfeeds]; rfl
        · refine .inr ⟨place (a.first - line) a ++ above, gap, rest, by rw [habove]; rfl,
            fun j hfirst hlast hfeeds => ?_⟩
          rw [hset j hfirst hlast hfeeds]
          simp

/-! ## How far the cursor gets -/

/-- An instruction moves a cursor that is `e` lines ahead of it at most one line past its source,
and `e` lines and its own line feeds further. -/
theorem next_le_add {e : Nat} (h : i.first ≤ i.last) (hline : line ≤ i.first + e) :
    next c line i ≤ i.last + 1 + (e + lineFeeds i.render) := by
  cases c with
  | skipSpan =>
    simp only [next, Continuation.advance]
    split <;> omega
  | collapseToEnd =>
    simp only [next, Continuation.advance]
    omega

/-- Over instructions in order on the lines from `m` to `n`, the cursor gets no further ahead than
their line feeds take it. -/
theorem cursor_le {m n e : Nat} (hfirst : ∀ i ∈ is, m ≤ i.first)
    (hlast : ∀ i ∈ is, i.first ≤ i.last ∧ i.last ≤ n)
    (hordered : is.Pairwise fun i j => i.last < j.first) (hm : m ≤ n + 1) (hline : line ≤ m + e) :
    cursor c line is ≤ n + 1 + (e + feeds is) := by
  induction is generalizing line m e with
  | nil =>
    show line ≤ _
    rw [feeds_nil]
    omega
  | cons i is ih =>
    obtain ⟨hi, his⟩ := List.forall_mem_cons.mp hlast
    obtain ⟨hbelow, hordered⟩ := List.pairwise_cons.mp hordered
    have hahead : line ≤ i.first + e := by
      have := hfirst i List.mem_cons_self
      omega
    have hcursor := ih hbelow his hordered (Nat.succ_le_succ hi.2) (next_le_add (c := c) hi.1 hahead)
    rw [feeds_cons, ← Nat.add_assoc e]
    exact hcursor

/-- Behind instructions that fit on their lines, the cursor is moved to lines of theirs only. -/
theorem cursor_collapseToEnd_lt {n : Nat} (h : Fits line is) (hline : line < n)
    (hlast : ∀ i ∈ is, i.last < n) : cursor .collapseToEnd line is < n := by
  induction is generalizing line with
  | nil => exact hline
  | cons i is ih =>
    obtain ⟨hi, his⟩ := List.forall_mem_cons.mp hlast
    have hnext : next .collapseToEnd line i = i.last :=
      next_collapseToEnd (h.spanned i List.mem_cons_self) (h.le_first i List.mem_cons_self)
    exact ih (h.next (c := .collapseToEnd)) (hnext ▸ hi) his

/-- The cursor counts the line feeds if no instruction leaves source lines unwritten. -/
theorem cursor_eq_add (h : ∀ i ∈ is, i.unwritten = 0) :
    cursor c line is = line + lineFeeds (render c line is) := by
  induction is generalizing line with
  | nil => rfl
  | cons i is ih =>
    obtain ⟨hi, his⟩ := List.forall_mem_cons.mp h
    have hgap : lineFeeds (List.replicate (i.first - line) '\n') = i.first - line :=
      List.count_replicate_self
    have hcursor : cursor c line (i :: is) = cursor c (next c line i) is := rfl
    rw [hcursor, ih his, render_cons, place, lineFeeds_append, lineFeeds_append, hgap]
    have hnext := next_of_unwritten c line hi
    omega

end Layout

namespace Document

variable {o : Overflow} {d : Document} {options : RenderOptions}

theorem text?_of_cursor_lt (h : Layout.cursor options.continuation 1 d.instructions < UInt64.size) :
    d.text? o options = some (d.text options) :=
  Layout.render?_of_lt h

/-- What a build that checks its line numbers writes is the text without a bound. -/
theorem text?_stops (d : Document) (options : RenderOptions) :
    d.text? .stops options =
      if Layout.cursor options.continuation 1 d.instructions < UInt64.size
      then some (d.text options) else none := by
  split
  · next h => exact text?_of_cursor_lt h
  · next h => exact Layout.render?_stops_of_le (by decide) (Nat.not_lt.mp h)

/-- A build writes a document unless it checks its line numbers and the cursor gets too far. -/
theorem text?_eq_none_iff : d.text? o options = none ↔
    o = .stops ∧ UInt64.size ≤ Layout.cursor options.continuation 1 d.instructions := by
  cases o with
  | stops => simp [text?_stops]
  | wraps =>
    obtain ⟨text, htext⟩ := Layout.exists_render?_wraps options.continuation 1 d.instructions
    have hsome : d.text? .wraps options = some text := htext
    simp [hsome]

/-- An instruction that claims all lines there are, and one that claims to stand below it. -/
def farSpan : Document :=
  { instructions :=
    [{ name := "from".toList, values := ["a".toList], last := UInt64.size - 1 },
      { name := "user".toList, values := ["é".toList], first := 2, last := 2 }] }

example : farSpan.text? .stops {} = none ∧
    farSpan.text? .wraps {} = some "FROM a\nUSER é".toList ∧
    farSpan.text {} = "FROM aUSER é".toList := by
  decide +kernel

/-- The same text is written in all builds if the instructions stand in order on the first `n` lines
and have not too many line feeds. -/
theorem text?_of_ordered {n : Nat} (hordered : Layout.Ordered d.instructions)
    (hlast : ∀ i ∈ d.instructions, i.last ≤ n)
    (hn : n + 1 + Layout.feeds d.instructions < UInt64.size) :
    d.text? o options = some (d.text options) := by
  have hcursor : Layout.cursor options.continuation 1 d.instructions ≤
      n + 1 + (0 + Layout.feeds d.instructions) :=
    Layout.cursor_le hordered.one_le (fun i hi => ⟨hordered.first_le_last i hi, hlast i hi⟩)
      hordered.pairwise (Nat.le_add_left 1 n) (Nat.le_refl 1)
  exact text?_of_cursor_lt (by omega)

/-- The document in a text is written the same in all builds, if fewer than `2 ^ 64` lines are read
and written. -/
theorem text?_of_parse {text : Text} (h : (parse text).value = .ok d)
    (hlines : (lines text).length + 1 + Layout.feeds d.instructions < UInt64.size) :
    d.text? o options = some (d.text options) := by
  obtain ⟨hlast, hordered⟩ := lines_of_parse h
  exact text?_of_ordered ⟨fun i hi => (hlast i (List.mem_of_mem_head? hi)).1,
    fun i hi => (hlast i hi).2.1, hordered.isChain⟩ (fun i hi => (hlast i hi).2.2) hlines

/-- Instructions that fit on their source lines, wherever these are, are written as many lines apart
in all builds. -/
theorem text?_of_fits (h : Layout.Fits 1 d.instructions)
    (hlast : ∀ i ∈ d.instructions, i.last < UInt64.size) :
    d.text? o { continuation := .collapseToEnd } = some (Layout.sourceSpaced d.instructions) := by
  rw [text?_of_cursor_lt (Layout.cursor_collapseToEnd_lt h (by decide) hlast)]
  exact congrArg some (Layout.render_collapseToEnd_eq h)

/-- A document of which no source lines are left unwritten has the same text in all builds and with
both policies, if the text has fewer than `2 ^ 64` lines. -/
theorem text?_of_unwritten (h : ∀ i ∈ d.instructions, i.last ≤ i.first + lineFeeds i.render)
    (hfeeds : 1 + lineFeeds (d.text {}) < UInt64.size) :
    d.text? o options = some (d.text {}) := by
  have hunwritten (i : Instruction) (hi : i ∈ d.instructions) : i.unwritten = 0 :=
    Instruction.unwritten_eq_zero_iff.mpr (h i hi)
  have htext : d.text options = d.text {} :=
    Layout.render_of_unwritten options.continuation hunwritten
  have hcursor : Layout.cursor options.continuation 1 d.instructions =
      1 + lineFeeds (d.text options) := Layout.cursor_eq_add hunwritten
  rw [htext] at hcursor
  rw [text?_of_cursor_lt (hcursor ▸ hfeeds), htext]

theorem render?_of_cursor_lt (h : Layout.cursor options.continuation 1 d.instructions < UInt64.size) :
    d.render? o options = some (d.render options) := by
  rw [render?, text?_of_cursor_lt h]
  rfl

end Document

end Dockerfile
