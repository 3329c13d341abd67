import Dockerfile.Proofs.Document.Separation
import Mathlib.Data.List.Chain

/-!
# Documents whose cursor moves to the end of each instruction

With this policy an instruction ends on its last source line, unless more lines are written than its
source has. That only happens below an entry point: the texts in its JSON array may hold line feeds
that its source spells as escapes.

* `Layout.sourceSpaced`, `Document.text_collapseToEnd`: as long as every instruction fits on its
  source lines, the lines between two instructions become empty lines, one for each.
* `Layout.le_cursor_iff`: how far the cursor gets.
* `Document.text_collapseToEnd_gap`: what stands between two neighbours, and when that is nothing.
* `Document.exists_glued_entrypoint`: a text with two instructions of which the second one is
  written behind the first one.
-/

namespace Dockerfile

open Text

namespace Layout

variable {line x : Nat} {i j : Instruction} {is : List Instruction}

/-! ## Source lines -/

/-- Instructions on disjoint source lines in order. -/
structure Ordered (is : List Instruction) : Prop where
  one_le_first : ∀ i ∈ is.head?, 1 ≤ i.first
  first_le_last : ∀ i ∈ is, i.first ≤ i.last
  isChain : is.IsChain fun i j => i.last < j.first

theorem Ordered.pairwise (h : Ordered is) : is.Pairwise fun i j => i.last < j.first := by
  obtain ⟨-, hle, hchain⟩ := h
  induction is with
  | nil => exact .nil
  | cons i is ih =>
    obtain ⟨hhead, htail⟩ := List.isChain_cons.mp hchain
    have hrest := ih (fun j hj => hle j (List.mem_cons_of_mem _ hj)) htail
    refine List.pairwise_cons.mpr ⟨fun j hj => ?_, hrest⟩
    cases is with
    | nil => cases hj
    | cons k is =>
      have hk : i.last < k.first := hhead k rfl
      rcases List.mem_cons.mp hj with rfl | hj
      · exact hk
      · have hkj := (List.pairwise_cons.mp hrest).1 j hj
        have := hle k (by simp)
        omega

theorem Ordered.one_le (h : Ordered is) : ∀ i ∈ is, 1 ≤ i.first := by
  cases is with
  | nil => simp
  | cons i is =>
    have hi := h.one_le_first i rfl
    refine List.forall_mem_cons.mpr ⟨hi, fun j hj => ?_⟩
    have hij := (List.pairwise_cons.mp h.pairwise).1 j hj
    have := h.first_le_last i List.mem_cons_self
    omega

/-- The cursor never goes past the instructions that stand on lines of their own and are written on
no more lines than they cover. -/
theorem fits_one_iff :
    Fits 1 is ↔ Ordered is ∧ ∀ i ∈ is, lineFeeds i.render ≤ i.last - i.first := by
  constructor
  · intro h
    have hspanned (i : Instruction) (hi : i ∈ is) := (h.spanned i hi).first_add_le_last
    refine ⟨⟨fun i hi => h.le_first i (List.mem_of_mem_head? hi), fun i hi => ?_,
      h.ordered.isChain⟩, fun i hi => ?_⟩
    · exact Nat.le_trans (Nat.le_add_right _ _) (hspanned i hi)
    · have := hspanned i hi
      omega
  · rintro ⟨hordered, hfeeds⟩
    refine ⟨hordered.one_le, fun i hi => ⟨hordered.one_le i hi, ?_⟩, hordered.pairwise⟩
    have := hordered.first_le_last i hi
    have := hfeeds i hi
    omega

/-! ## Instructions that fit -/

/-- The first instruction below the lines in front of it, and each other one as many lines below the
one before it as its source is. -/
def sourceSpaced : List Instruction → Text
  | [] => []
  | i :: rest =>
    place (i.first - 1) i ++
      (List.zipWith (fun i j => place (j.first - i.last) j) (i :: rest) rest).flatten

theorem render_collapseToEnd_last (h : Fits line (i :: is)) :
    render .collapseToEnd i.last is =
      (List.zipWith (fun i j => place (j.first - i.last) j) (i :: is) is).flatten := by
  induction is generalizing line i with
  | nil => rfl
  | cons j is ih =>
    have hlt : i.last < j.first := (List.pairwise_cons.mp h.ordered).1 j List.mem_cons_self
    have hnext : next .collapseToEnd i.last j = j.last :=
      next_collapseToEnd (h.spanned j (by simp)) (Nat.le_of_lt hlt)
    rw [render_cons, hnext, ih (h.next (c := .collapseToEnd)), List.zipWith_cons_cons,
      List.flatten_cons]

theorem render_collapseToEnd_eq (h : Fits 1 is) :
    render .collapseToEnd 1 is = sourceSpaced is := by
  cases is with
  | nil => rfl
  | cons i is =>
    have hnext : next .collapseToEnd 1 i = i.last :=
      next_collapseToEnd (h.spanned i List.mem_cons_self) (h.le_first i List.mem_cons_self)
    rw [render_cons, hnext, render_collapseToEnd_last h]
    rfl

/-- The cursor behind instructions that fit stands on the last line of the last of them. -/
theorem next_cursor_collapseToEnd {after : List Instruction} (h : Fits line (is ++ i :: after)) :
    next .collapseToEnd (cursor .collapseToEnd line is) i = i.last := by
  have hi : Fits (cursor .collapseToEnd line is) (i :: after) := h.cursor
  exact next_collapseToEnd (hi.spanned i List.mem_cons_self) (hi.le_first i List.mem_cons_self)

/-! ## Any instructions -/

/-- The line feeds inside the texts of instructions. -/
def feeds (is : List Instruction) : Nat := lineFeeds (is.flatMap Instruction.render)

@[simp] theorem feeds_nil : feeds [] = 0 := rfl

@[simp] theorem feeds_cons : feeds (i :: is) = lineFeeds i.render + feeds is := by
  simp [feeds, lineFeeds_append]

theorem exists_suffix_cons_iff {P : Instruction → List Instruction → Prop} :
    (∃ a run, a :: run <:+ i :: is ∧ P a run) ↔ P i is ∨ ∃ a run, a :: run <:+ is ∧ P a run := by
  constructor
  · rintro ⟨a, run, hsuffix, h⟩
    rcases List.suffix_cons_iff.mp hsuffix with heq | hsuffix
    · cases heq
      exact .inl h
    · exact .inr ⟨a, run, hsuffix, h⟩
  · rintro (h | ⟨a, run, hsuffix, h⟩)
    · exact ⟨i, is, List.suffix_refl _, h⟩
    · exact ⟨a, run, hsuffix.trans (List.suffix_cons i is), h⟩

/-- The cursor is where it was and as many lines further as have been written since, or one of the
instructions has set it: to its first line before it was written, or to its last line after that. -/
theorem le_cursor_iff :
    x ≤ cursor .collapseToEnd line is ↔ x ≤ line + feeds is ∨
      ∃ a run, a :: run <:+ is ∧ (x ≤ a.first + feeds (a :: run) ∨ x ≤ a.last + feeds run) := by
  induction is generalizing line with
  | nil => simp [cursor]
  | cons i is ih =>
    have hnext : x ≤ next .collapseToEnd line i + feeds is ↔
        x ≤ line + feeds (i :: is) ∨ x ≤ i.first + feeds (i :: is) ∨ x ≤ i.last + feeds is := by
      simp only [next, Continuation.advance, feeds_cons]
      omega
    have hcursor : cursor .collapseToEnd line (i :: is) =
        cursor .collapseToEnd (next .collapseToEnd line i) is := rfl
    rw [hcursor, ih, hnext, exists_suffix_cons_iff, or_assoc]

/-- From line one on, over instructions on disjoint source lines in order, the cursor reaches a line
below them only if some of them, up to the last, are written on as many lines as their source has up
to there. -/
theorem le_cursor_one_iff (hne : is ≠ []) (hone : ∀ a ∈ is, 1 ≤ a.first)
    (hordered : is.Pairwise fun a b => a.last < b.first) (hx : ∀ a ∈ is, a.last < x) :
    x ≤ cursor .collapseToEnd 1 is ↔
      ∃ a run, a :: run <:+ is ∧ x ≤ a.first + feeds (a :: run) := by
  rw [le_cursor_iff]
  constructor
  · rintro (h | ⟨a, run, hsuffix, h | h⟩)
    · obtain ⟨a, run, rfl⟩ := List.exists_cons_of_ne_nil hne
      have := hone a List.mem_cons_self
      exact ⟨a, run, List.suffix_refl _, by omega⟩
    · exact ⟨a, run, hsuffix, h⟩
    · cases run with
      | nil =>
        have := hx a (hsuffix.subset List.mem_cons_self)
        rw [feeds_nil] at h
        omega
      | cons b run =>
        -- The next instruction starts below, and sets the cursor at least as far.
        have hab : a.last < b.first :=
          (List.pairwise_cons.mp (hordered.sublist hsuffix.sublist)).1 b List.mem_cons_self
        exact ⟨b, run, (List.suffix_cons a _).trans hsuffix, by omega⟩
  · rintro ⟨a, run, hsuffix, h⟩
    exact .inr ⟨a, run, hsuffix, .inl h⟩

end Layout

/-! ## Line feeds in values -/

theorem Instruction.lineFeed_not_mem_render {i : Instruction} (hname : isAlphanum i.name)
    (hflags : ∀ f ∈ i.flags, '\n' ∉ f) (hvalues : ∀ v ∈ i.values, '\n' ∉ v) :
    '\n' ∉ i.render := by
  have hspaced {args : List Text} (h : ∀ a ∈ args, '\n' ∉ a) : '\n' ∉ args.flatMap (' ' :: ·) := by
    simpa using h
  have hupper : '\n' ∉ upper i.name := fun hmem =>
    absurd ((isAlphanum_iff.mp (isAlphanum_upper hname)).2 _ hmem) (by decide)
  have harguments : '\n' ∉ i.arguments := by
    unfold arguments
    split
    · simp
    · split
      · have hjoined : ∀ c ∈ joinWith [',', ' '] (i.values.map quoted), c ≠ '\n' := by
          refine forall_mem_joinWith (by simp) fun l hl c hc => ?_
          obtain ⟨v, hv, rfl⟩ := List.mem_map.mp hl
          rintro rfl
          exact hvalues v hv (by simpa [quoted] using hc)
        simpa using fun hmem => hjoined _ hmem rfl
      · exact hspaced hvalues
  simp [render, hupper, hspaced hflags, harguments]

namespace Document

variable {text : Text} {d : Document}

/-- An instruction takes more lines than its source only if it is an entry point with a line feed in
a value. -/
theorem spanned_or_of_parse (h : (parse text).value = .ok d) :
    ∀ i ∈ d.instructions,
      i.Spanned ∨ i.keyword? = some .entrypoint ∧ ∃ v ∈ i.values, '\n' ∈ v := by
  obtain ⟨escape, ss, -, hss, -, hnames, his⟩ := parse_eq_ok.mp h
  obtain ⟨-, hspanned⟩ := Statement.ofLines_spans hss
  have hchars := Statement.ofLines_chars (P := (· ≠ '\n')) (by decide)
    (fun l hl c hc => (mem_of_mem_lines hl hc).2) hss
  rw [his]
  intro i hi
  obtain ⟨s, hs, rfl⟩ := List.mem_map.mp hi
  by_cases hentry : s.keyword? = some .entrypoint
  · by_cases hfeed : ∃ v ∈ s.values, '\n' ∈ v
    · exact .inr ⟨hentry, hfeed⟩
    · have hflags : ∀ f ∈ s.flags, '\n' ∉ f := fun f hf hmem =>
        (hchars s hs).1 _ (Statement.mem_of_mem_args.1 f hf _ hmem) rfl
      have hvalues : ∀ v ∈ s.values, '\n' ∉ v := fun v hv hmem => hfeed ⟨v, hv, hmem⟩
      have hzero : lineFeeds s.toInstruction.render = 0 :=
        lineFeeds_eq_zero_iff.mpr
          (Instruction.lineFeed_not_mem_render (hnames s hs) hflags hvalues)
      have hs' := (hspanned s hs).1
      exact .inl ⟨hs'.one_le_first, by
        rw [hzero]
        exact hs'.first_le_last⟩
  · exact .inl
      (Statement.spanned_toInstruction (hspanned s hs).1 (hnames s hs) hentry (hchars s hs))

/-- The instructions of a text stand on its lines. -/
theorem lines_of_parse (h : (parse text).value = .ok d) :
    (∀ i ∈ d.instructions, 1 ≤ i.first ∧ i.first ≤ i.last ∧ i.last ≤ (lines text).length) ∧
      d.instructions.Pairwise fun i j => i.last < j.first := by
  obtain ⟨escape, ss, -, hss, -, -, his⟩ := parse_eq_ok.mp h
  obtain ⟨hordered, hspanned⟩ := Statement.ofLines_spans hss
  rw [his, List.forall_mem_map, List.pairwise_map]
  refine ⟨fun s hs => ?_, hordered⟩
  obtain ⟨hs', hlast⟩ := hspanned s hs
  exact ⟨hs'.one_le_first, hs'.first_le_last, hlast⟩

/-! ## The layout -/

/-- Instructions that fit on their source lines are written as many lines apart as they are in the
source. Without entry points this holds of the instructions of a text, so each line between two of
them becomes an empty line. -/
theorem text_collapseToEnd :
    (∀ d : Document, Layout.Ordered d.instructions →
      (∀ i ∈ d.instructions, lineFeeds i.render ≤ i.last - i.first) →
      d.text { continuation := .collapseToEnd } = Layout.sourceSpaced d.instructions) ∧
    ∀ text d, (parse text).value = .ok d →
      (∀ i ∈ d.instructions, i.keyword? ≠ some .entrypoint) →
      (Layout.Ordered d.instructions ∧
        ∀ i ∈ d.instructions, lineFeeds i.render ≤ i.last - i.first) ∧
      ∀ before i j after, d.instructions = before ++ i :: j :: after →
        ∃ start rest,
          (Document.mk (before ++ [i])).text { continuation := .collapseToEnd } =
            start ++ i.render ∧
          d.text { continuation := .collapseToEnd } =
            start ++ i.render ++
              '\n' :: ((lines text).extract i.last (j.first - 1)).map (fun _ => '\n') ++
              j.render ++ rest := by
  refine ⟨fun d hordered hfeeds =>
    Layout.render_collapseToEnd_eq (Layout.fits_one_iff.mpr ⟨hordered, hfeeds⟩), ?_⟩
  intro text d h hentry
  have hfits := fits_of_parse h hentry
  refine ⟨Layout.fits_one_iff.mp hfits, fun before i j after hd => ?_⟩
  obtain ⟨hlines, -⟩ := lines_of_parse h
  obtain ⟨-, hj, hlast⟩ := hlines j (by simp [hd])
  rw [hd] at hfits
  have hlt : i.last < j.first :=
    (List.pairwise_cons.mp (List.pairwise_append.mp hfits.ordered).2.1).1 j List.mem_cons_self
  obtain ⟨start, rest, hstart, htext⟩ := Layout.render_neighbours .collapseToEnd 1 before after i j
  rw [Layout.next_cursor_collapseToEnd hfits, ← hd] at htext
  have hgap : List.replicate (j.first - i.last) '\n' =
      '\n' :: ((lines text).extract i.last (j.first - 1)).map (fun _ => '\n') := by
    have hlength : ((lines text).extract i.last (j.first - 1)).length = j.first - 1 - i.last := by
      simp
      omega
    rw [List.map_const', hlength, ← List.replicate_succ]
    congr 1
    omega
  exact ⟨start, rest, hstart, by rw [← hgap]; exact htext⟩

/-- A text with lines between instructions and with instructions on several lines. -/
def spacedText : Text :=
  "# base\n\nFROM a\nRUN x \\\n y \\\n z\nCOPY <<E /f\nhi\nE\n\n# last\nUSER c".toList

theorem text_collapseToEnd_spacedText :
    ∃ d, (parse spacedText).value = .ok d ∧
      (Layout.Ordered d.instructions ∧
        ∀ i ∈ d.instructions, lineFeeds i.render ≤ i.last - i.first) ∧
      d.text { continuation := .collapseToEnd } = Layout.sourceSpaced d.instructions ∧
      Layout.sourceSpaced d.instructions =
        "\n\nFROM a\nRUN x y z\nCOPY <<E /f\nhi\nE\n\n\nUSER c".toList := by
  have h : (parse spacedText).value = .ok ((parse spacedText).value.toOption.getD {}) := by
    decide +kernel
  obtain ⟨hfits, -⟩ := text_collapseToEnd.2 spacedText _ h (by decide +kernel)
  exact ⟨_, h, hfits, text_collapseToEnd.1 _ hfits.1 hfits.2, by decide +kernel⟩

/-! ## Neighbours -/

/-- Between two neighbours in the text of a document stand line feeds only. There are none if and
only if some instructions up to the first neighbour have as many line feeds as the source has lines
from the first of them to the second neighbour, and then one of the instructions is an entry point
with a line feed in a value. -/
theorem text_collapseToEnd_gap {i j : Instruction} {before after : List Instruction}
    (h : (parse text).value = .ok d) (hd : d.instructions = before ++ i :: j :: after) :
    ∃ start gap rest,
      (Document.mk (before ++ [i])).text { continuation := .collapseToEnd } = start ++ i.render ∧
      d.text { continuation := .collapseToEnd } =
        start ++ i.render ++ List.replicate gap '\n' ++ j.render ++ rest ∧
      (gap = 0 ↔
        ∃ a run, a :: run <:+ before ++ [i] ∧ j.first ≤ a.first + Layout.feeds (a :: run)) ∧
      (gap = 0 →
        ∃ e ∈ before ++ [i], e.keyword? = some .entrypoint ∧ ∃ v ∈ e.values, '\n' ∈ v) := by
  obtain ⟨hlines, hordered⟩ := lines_of_parse h
  have hspanned := spanned_or_of_parse h
  rw [hd] at hlines hordered hspanned
  have hmem : ∀ a ∈ before ++ [i], a ∈ before ++ i :: j :: after := by simp; tauto
  have hlt : ∀ a ∈ before ++ [i], a.last < j.first := by
    have hsplit : (before ++ [i] ++ j :: after).Pairwise fun a b => a.last < b.first := by
      simpa using hordered
    exact fun a ha => (List.pairwise_append.mp hsplit).2.2 a ha j List.mem_cons_self
  have hbefore : (before ++ [i]).Pairwise fun a b => a.last < b.first :=
    hordered.sublist (by simp)
  have hcursor : Layout.next .collapseToEnd (Layout.cursor .collapseToEnd 1 before) i =
      Layout.cursor .collapseToEnd 1 (before ++ [i]) := by simp [Layout.cursor]
  obtain ⟨start, rest, hstart, htext⟩ := Layout.render_neighbours .collapseToEnd 1 before after i j
  rw [← hd] at htext
  refine ⟨start, _, rest, hstart, htext, ?_, fun hgap => ?_⟩
  · rw [Nat.sub_eq_zero_iff_le, hcursor]
    exact Layout.le_cursor_one_iff (by simp) (fun a ha => (hlines a (hmem a ha)).1) hbefore hlt
  · by_contra hnone
    -- Instructions that all fit leave the cursor on the last line of the first neighbour.
    have hfits : Layout.Fits 1 (before ++ [i]) :=
      ⟨fun a ha => (hlines a (hmem a ha)).1,
        fun a ha => (hspanned a (hmem a ha)).resolve_right fun he => hnone ⟨a, ha, he⟩, hbefore⟩
    rw [Layout.next_cursor_collapseToEnd hfits] at hgap
    have := hlt i (by simp)
    omega

/-- An entry point whose JSON array holds a line feed, and another instruction behind it. -/
def escapedFeedText : Text := "ENTRYPOINT [\"a\\nb\"]\nUSER x".toList

/-- The instructions of `escapedFeedText`. -/
def escapedFeed : Document :=
  { instructions :=
      [{ name := "ENTRYPOINT".toList, values := ["a\nb".toList], first := 1, last := 1,
         source := "ENTRYPOINT [\"a\\nb\"]".toList },
       { name := "USER".toList, values := ["x".toList], first := 2, last := 2,
         source := "USER x".toList }] }

theorem text_collapseToEnd_gap_escapedFeed :
    ∃ start gap rest,
      (Document.mk (escapedFeed.instructions.take 1)).text { continuation := .collapseToEnd } =
        start ++ "ENTRYPOINT [\"a\nb\"]".toList ∧
      escapedFeed.text { continuation := .collapseToEnd } =
        start ++ "ENTRYPOINT [\"a\nb\"]".toList ++ List.replicate gap '\n' ++ "USER x".toList ++
          rest ∧
      gap = 0 := by
  have h : (parse escapedFeedText).value = .ok escapedFeed := by decide +kernel
  have hd : escapedFeed.instructions = [] ++ _ :: _ :: [] := rfl
  obtain ⟨start, gap, rest, hstart, htext, hgap, -⟩ := text_collapseToEnd_gap h hd
  exact ⟨start, gap, rest, hstart, htext,
    hgap.mpr ⟨_, [], List.suffix_refl _, by decide +kernel⟩⟩

/-- Two neighbours may be written without a line feed between them, also if each instruction leaves
the cursor on its last source line. -/
theorem exists_glued_entrypoint :
    ∃ text d, (parse text).value = .ok d ∧
      ∃ before i j after, d.instructions = before ++ i :: j :: after ∧
        ¬ ∃ start gap rest, 0 < gap ∧
          d.text { continuation := .collapseToEnd } =
            start ++ i.render ++ List.replicate gap '\n' ++ j.render ++ rest := by
  refine ⟨escapedFeedText, escapedFeed, by decide +kernel, [], _, _, [], rfl, ?_⟩
  rintro ⟨start, gap, rest, hgap, htext⟩
  -- The only line feed of the text stands inside the entry point.
  have hall : lineFeeds (escapedFeed.text { continuation := .collapseToEnd }) = 1 := by
    decide +kernel
  have hfirst : lineFeeds escapedFeed.instructions[0].render = 1 := by decide +kernel
  have hgapFeeds : lineFeeds (List.replicate gap '\n') = gap := List.count_replicate_self
  have hsum := congrArg lineFeeds htext
  simp only [lineFeeds_append, hall, hgapFeeds] at hsum
  change 1 = lineFeeds start + lineFeeds escapedFeed.instructions[0].render + gap + _ + _ at hsum
  omega

end Document

end Dockerfile
