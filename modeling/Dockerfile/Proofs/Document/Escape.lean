import Dockerfile.Proofs.Document.RoundTrip
import Dockerfile.Proofs.Statement.Visible

/-!
# Written documents and the escape character

A directive that selects an escape character is a comment, so it does not belong to the document and
is not written. What is written is read with the default escape character, which makes a difference
where an instruction is written on a line that ends in it: the reader takes the next line for a part
of the same instruction.

* `Instruction.firstLine`: the line that an instruction is written on, without heredocs.
* `Statement.not_rewritten_of_continued`: if that line ends in the escape character, what is read is
  not written the same way. It has lost this character or has gained some of the next line, so the
  number of visible characters is another one.
* `Document.parse_text_iff`: writing a document and reading it again keeps its instructions if and
  only if none of them is written on such a line.
* `Document.exists_parse_text_ne`: a text with a directive that is not read again.
-/

namespace Dockerfile

open Text

/-- The line that the instruction is written on, without heredocs. -/
def Instruction.firstLine (i : Instruction) : Text := i.render.takeWhile (· ≠ '\n')

namespace Statement

variable {s t : Statement} {ss last : List Statement} {escape : Char} {n lo : Nat}

/-! ## First lines -/

theorem Writable.firstLine_eq (h : s.Writable escape) : s.toInstruction.firstLine = s.header := by
  have hheader : '\n' ∉ s.header := fun hmem => (h.header_chars _ hmem).1 rfl
  rw [Instruction.firstLine, h.render_eq]
  cases s.body with
  | nil => simpa [unlines, joinWith] using takeWhile_ne_lineFeed hheader []
  | cons l body =>
    rw [unlines_cons (by simp), takeWhile_ne_lineFeed hheader]
    simp

/-- The first line is the header. If there is no value, a heredoc starts on it as well. -/
theorem firstLine_cases (h : t.Plain) (hchars : t.Chars (· ≠ '\n')) :
    t.toInstruction.firstLine = t.header ∨
      ∃ b, t.toInstruction.firstLine = t.header ++ ' ' :: b := by
  have hheader : '\n' ∉ t.header := lineFeed_not_mem_header h.isAlphanum h.keyword hchars
  rw [Instruction.firstLine, render_toInstruction h.keyword, takeWhile_ne_lineFeed hheader]
  split
  · exact .inl (List.append_nil _)
  · split
    · exact .inr ⟨_, by rw [List.takeWhile_cons_of_pos (by decide)]⟩
    · exact .inl (by rw [List.takeWhile_cons_of_neg (by decide), List.append_nil])

/-! ## Continued headers -/

/-- The instruction in `t` has the flags and values of the one in `s`, and its name in capitals. -/
def Rewrites (t s : Statement) : Prop :=
  (t.name, t.flags, t.values) = (upper s.name, s.flags, s.values)

theorem Rewrites.render_eq (h : t.Rewrites s) (hs : s.Plain) :
    t.toInstruction.render = s.toInstruction.render := by
  simp only [Rewrites, Prod.mk.injEq] at h
  exact Instruction.render_of_fields hs.isAlphanum h.1 h.2.1 h.2.2

theorem Rewrites.plain (h : t.Rewrites s) (hs : s.Plain) (ht : Trimmed t.text) : t.Plain := by
  simp only [Rewrites, Prod.mk.injEq] at h
  refine ⟨ht, h.1 ▸ isAlphanum_upper hs.isAlphanum, ?_⟩
  rw [keyword?, h.1, Keyword.ofName?_upper hs.isAlphanum]
  exact hs.keyword

/-- A statement that has more visible characters than a continued header, and does not end in the
escape character, is not written with this header. -/
theorem not_rewrites_of_complete {before : Text} (hs : s.Writable escape)
    (hheader : s.header = before ++ [defaultEscape]) (ht : t.Complete defaultEscape)
    (hchars : t.Chars (· ≠ '\n')) (hlt : visible before < visible t.text) : ¬ t.Rewrites s := by
  intro h
  have hplain := h.plain hs.plain ht.trimmed
  have hline : t.toInstruction.firstLine = before ++ [defaultEscape] := by
    rw [Instruction.firstLine, h.render_eq hs.plain, ← hheader]
    exact hs.firstLine_eq
  rcases firstLine_cases hplain hchars with heq | ⟨b, heq⟩
  · -- The header ends as the text does, which is complete.
    have hlast : t.header.getLast? = some defaultEscape := by
      rw [← heq, hline, List.getLast?_concat]
    exact ht.getLast?_ne ((hplain.getLast?_header_eq_some_iff (by decide)).mp hlast)
  · -- A heredoc behind the header would have to be invisible, but it ends the line.
    rw [hline] at heq
    have hsum := congrArg visible heq
    have hescape : visible [defaultEscape] = 1 := rfl
    rw [visible_append, visible_append, visible_space_cons, hplain.visible_header, hescape] at hsum
    have hblank : Blank (' ' :: b) := by
      rw [← visible_eq_zero_iff, visible_space_cons]
      omega
    have htrail : NoTrail (t.header ++ ' ' :: b) := by
      rw [← heq, ← hheader]
      exact hs.plain.trimmed_header.2
    exact absurd (htrail.of_append.eq_nil_of_blank hblank) (by simp)

/-- A statement without heredocs that has as many visible characters as a continued header without
the escape character is not written with this header. -/
theorem not_rewrites_of_open {before : Text} (hs : s.Writable escape)
    (hheader : s.header = before ++ [defaultEscape]) (ht : Trimmed t.text)
    (hbody : t.body = []) (heq : visible t.text = visible before) : ¬ t.Rewrites s := by
  intro h
  have hplain := h.plain hs.plain ht
  have hrender : t.header = unlines (s.header :: s.body) := by
    rw [← hs.render_eq, ← h.render_eq hs.plain, render_toInstruction hplain.keyword, if_pos hbody,
      List.append_nil]
  have hescape : visible [defaultEscape] = 1 := rfl
  have hle : visible s.header ≤ visible (unlines (s.header :: s.body)) := by
    cases s.body with
    | nil => exact Nat.le_refl _
    | cons l body =>
      rw [unlines_cons (by simp), visible_append]
      exact Nat.le_add_right _ _
  rw [← hrender, hplain.visible_header, heq, hheader, visible_append, hescape] at hle
  omega

/-- Only a statement with heredocs is written like one with heredocs. -/
theorem Rewrites.body_eq_nil (h : t.Rewrites s) (hs : s.Writable escape) (ht : Trimmed t.text)
    (hchars : t.Chars (· ≠ '\n')) (hbody : t.body = []) : s.body = [] := by
  have hplain := h.plain hs.plain ht
  have hfeeds := lineFeeds_render hplain.isAlphanum hplain.keyword hchars
  rw [h.render_eq hs.plain, hs.lineFeeds_render, hbody] at hfeeds
  simpa using hfeeds

/-- A header that ends in the escape character opens a statement with its visible characters. -/
theorem Phase.step_continued {before : Text} (ht : Trimmed (before ++ [escape]))
    (hskip : isSkipped (before ++ [escape]) = false) :
    ∃ pieces, Phase.between.step escape n (before ++ [escape]) = (.joining pieces n n, []) ∧
      (Phase.joining pieces n n).Sound escape ∧
      visible (joinPieces pieces) = visible before := by
  have hstep : Phase.between.step escape n (before ++ [escape]) =
      (.joining (addPiece (trimEnd before) []) n n, []) := by
    have hpiece : piece escape (before ++ [escape]) = (trimEnd before, true) := by
      simp [piece, dropEnd?]
    simp [Phase.step, ht.trim_eq, hskip, Phase.join, hpiece]
  have hbetween : Phase.between.Sound escape := trivial
  have hmove := Phase.move_step escape n (before ++ [escape]) .between
  rw [hstep] at hmove
  refine ⟨_, hstep, (Phase.sound_of_move hbetween hmove).1, ?_⟩
  rw [visible_joinPieces_addPiece, visible_trimEnd]
  exact Nat.zero_add _

/-- What is read from a header that ends in the escape character and from the lines below it is not
written the same way. -/
theorem not_rewritten_of_continued (hs : s.Writable escape)
    (hlast : s.header.getLast? = some defaultEscape) {ended : Phase} {new : List Statement}
    (hrun : Phase.between.run defaultEscape n (s.header :: (s.body ++ written s.last ss)) =
      (ended, new))
    (hfinish : ended.finish = .ok last) (hchars : ∀ t ∈ new ++ last, t.Chars (· ≠ '\n')) :
    (new ++ last).map (fun t => (t.name, t.flags, t.values)) ≠
      (s :: ss).map fun s => (upper s.name, s.flags, s.values) := by
  intro hfields
  obtain ⟨before, hheader⟩ := List.getLast?_eq_some_iff.mp hlast
  obtain ⟨start, hstep, hsound, hvisible⟩ := Phase.step_continued (n := n)
    (hheader ▸ hs.plain.trimmed_header) (hheader ▸ hs.isSkipped_header)
  have hgrows : (Phase.joining start n n).Grows (visible before) [] := Nat.le_of_eq hvisible.symm
  have hbelow : (Phase.joining start n n).run defaultEscape (n + 1) (s.body ++ written s.last ss) =
      (ended, new) := by
    rw [hheader, Phase.run_cons, hstep] at hrun
    exact hrun
  obtain ⟨hended, hnew⟩ := Phase.sound_run (n := n + 1) hsound (s.body ++ written s.last ss)
  have hgrown := Phase.grows_run defaultEscape (n + 1) hgrows (s.body ++ written s.last ss)
  rw [hbelow] at hended hnew hgrown
  cases new with
  | cons t new =>
    exact not_rewrites_of_complete hs hheader (hnew t List.mem_cons_self)
      (hchars t (List.mem_append_left _ List.mem_cons_self)) hgrown (List.cons.inj hfields).1
  | nil =>
    rw [List.nil_append] at hfields hchars
    rcases Phase.finish_eq_ok hfinish with ⟨rfl, rfl⟩ | ⟨pieces, first, l, rfl, rfl⟩
    · cases hfields
    · unfold keep at hfields hchars
      split at hfields
      · cases hfields
      · rename_i hne
        rw [if_neg hne] at hchars
        obtain ⟨hfirst, hnil⟩ := List.cons.inj hfields
        have hrewrites : Rewrites _ s := hfirst
        have htrimmed : Trimmed (joinPieces pieces) := trimmed_joinPieces hended
        have hbody : s.body = [] :=
          hrewrites.body_eq_nil hs htrimmed (hchars _ List.mem_cons_self) rfl
        -- No lines stand below the header, so the statement has not grown.
        rw [List.map_eq_nil_iff.mp hnil.symm, hbody] at hbelow
        cases hbelow
        exact not_rewrites_of_open hs hheader htrimmed rfl hvisible hrewrites

theorem Writable.of_getLast?_header (hs : s.Writable escape)
    (hlast : s.header.getLast? ≠ some defaultEscape) : s.Writable where
  plain := hs.plain
  complete :=
    { hs.complete with
      getLast?_ne := fun h => hlast ((hs.plain.getLast?_header_eq_some_iff (by decide)).mpr h) }
  lineValues_ne_nil := hs.lineValues_ne_nil
  chars := hs.chars

/-- If what is read is written the same way as the statements, then none of their headers is
continued. -/
theorem getLast?_header_ne_of_run (h : ∀ s ∈ ss, s.Writable escape) {ended : Phase}
    {new : List Statement} (hrun : Phase.between.run defaultEscape n (written lo ss) = (ended, new))
    (hfinish : ended.finish = .ok last) (hchars : ∀ t ∈ new ++ last, t.Chars (· ≠ '\n'))
    (hfields : (new ++ last).map (fun t => (t.name, t.flags, t.values)) =
      ss.map fun s => (upper s.name, s.flags, s.values)) :
    ∀ s ∈ ss, s.header.getLast? ≠ some defaultEscape := by
  induction ss generalizing lo n new with
  | nil => simp
  | cons s ss ih =>
    obtain ⟨hs, hss⟩ := List.forall_mem_cons.mp h
    rw [written, List.append_assoc, Phase.run_blank_append] at hrun
    by_cases hlast : s.header.getLast? = some defaultEscape
    · exact absurd hfields (not_rewritten_of_continued hs hlast hrun hfinish hchars)
    · rw [Phase.run_append, (hs.of_getLast?_header hlast).run_header] at hrun
      generalize hrest : Phase.between.run defaultEscape _ (written s.last ss) = rest at hrun
      obtain ⟨ended', later⟩ := rest
      cases hrun
      exact List.forall_mem_cons.mpr ⟨hlast, ih hss hrest
        (List.forall_mem_cons.mp hchars).2 (List.cons.inj hfields).2⟩

end Statement

namespace Document

open Statement

variable {text : Text} {d : Document} {ss : List Statement} {escape : Char}

/-! ## Documents -/

theorem forall_firstLine_iff (hss : ∀ s ∈ ss, s.Writable escape) :
    (∀ i ∈ ss.map toInstruction, i.firstLine.getLast? ≠ some defaultEscape) ↔
      ∀ s ∈ ss, s.header.getLast? ≠ some defaultEscape := by
  rw [List.forall_mem_map]
  exact forall₂_congr fun s hs => by rw [(hss s hs).firstLine_eq]

/-- A document that is written and read again has the same instructions, up to the case of their
keywords, if and only if none of them is written on a line that ends in the default escape
character. This is so if the text that it comes from is read with the default escape character. -/
theorem parse_text_iff (h : (parse text).value = .ok d) (hreturn : '\r' ∉ text)
    (heffective : Escape.effective defaultEscape (lines text) = .ok escape)
    (hentry : ∀ i ∈ d.instructions, i.keyword? ≠ some .entrypoint)
    (hclosed : (Phase.between.run escape 1 (lines text)).1 = .between)
    (hvalue : ∀ s ∈ (Phase.between.run escape 1 (lines text)).2,
      s.body ≠ [] → s.lineValues ≠ []) :
    ((∃ d', (parse (d.text { continuation := .collapseToEnd })).value = .ok d' ∧
        d'.instructions.map (fun i => (i.name, i.flags, i.values)) =
          d.instructions.map (fun i => (upper i.name, i.flags, i.values))) ↔
      ∀ i ∈ d.instructions, i.firstLine.getLast? ≠ some defaultEscape) ∧
    (escape = defaultEscape →
      ∀ i ∈ d.instructions, i.firstLine.getLast? ≠ some defaultEscape) := by
  obtain ⟨ss, -, hne, hss, hd⟩ :=
    writable_of_effective h hreturn heffective hentry hclosed hvalue
  have hfits := fits_of_parse h hentry
  have htext := text_eq_unlines_written hd hfits hss (.inl rfl)
  have hbelow : Below 0 ss := .of_fits (hd ▸ hfits)
  rw [htext, hd, forall_firstLine_iff hss]
  refine ⟨⟨?_, fun hlast => ?_⟩, ?_⟩
  · rintro ⟨d', hparse, hfields⟩
    obtain ⟨escape', ts, hescape, hts, -, -, hd'⟩ := parse_eq_ok.mp hparse
    rw [lines_unlines_written hss] at hescape hts
    rw [Escape.effective_of_undirected (undirected_written hss)] at hescape
    cases hescape
    have hchars := ofLines_chars (P := (· ≠ '\n')) (by decide)
      (fun l hl c hc => (written_chars hss l hl c hc).1) hts
    obtain ⟨last, hfinish, rfl⟩ := ofLines_eq_ok.mp hts
    rw [hd', List.map_map, List.map_map] at hfields
    exact getLast?_header_ne_of_run hss rfl hfinish hchars hfields
  · have hdefault (s : Statement) (hs : s ∈ ss) : s.Writable :=
      (hss s hs).of_getLast?_header (hlast s hs)
    exact ⟨_, parse_written hdefault hbelow hne, fields_relocate hdefault⟩
  · rintro rfl s hs hlast
    exact (hss s hs).complete.getLast?_ne
      (((hss s hs).plain.getLast?_header_eq_some_iff (by decide)).mp hlast)

/-- A text with a directive that selects the backquote, a continued instruction and a heredoc. -/
def backquoteText : Text :=
  "# escape=\x60\nfrom a \x60\n AS b\nCOPY <<E c:\\d\n\\\nE\n\nuser c".toList

theorem parse_text_iff_backquoteText :
    ∃ d d', (parse backquoteText).value = .ok d ∧ ¬ Escape.Undirected (lines backquoteText) ∧
      (parse (d.text { continuation := .collapseToEnd })).value = .ok d' ∧
      d'.instructions.map (fun i => (i.name, i.flags, i.values)) =
        d.instructions.map (fun i => (upper i.name, i.flags, i.values)) := by
  have h : (parse backquoteText).value = .ok ((parse backquoteText).value.toOption.getD {}) := by
    decide +kernel
  have heffective : Escape.effective defaultEscape (lines backquoteText) = .ok '\x60' := by
    decide +kernel
  have hiff := parse_text_iff h (by decide +kernel) heffective (by decide +kernel)
    (by decide +kernel) (by decide +kernel)
  obtain ⟨d', hparse, hfields⟩ := hiff.1.mpr (by decide +kernel)
  exact ⟨_, d', h, by decide +kernel, hparse, hfields⟩

/-- A text with a directive that selects the backquote, and an instruction that ends in a
backslash. -/
def backslashText : Text := "# escape=\x60\nWORKDIR c:\\\nUSER x".toList

/-- Writing a document and reading it again may change its instructions, if the text that it comes
from selects an escape character. -/
theorem exists_parse_text_ne :
    ∃ text escape d, (parse text).value = .ok d ∧ '\r' ∉ text ∧
      ¬ Escape.Undirected (lines text) ∧
      Escape.effective defaultEscape (lines text) = .ok escape ∧
      (∀ i ∈ d.instructions, i.keyword? ≠ some .entrypoint) ∧
      (Phase.between.run escape 1 (lines text)).1 = .between ∧
      (∀ s ∈ (Phase.between.run escape 1 (lines text)).2, s.body ≠ [] → s.lineValues ≠ []) ∧
      ¬ ∃ d', (parse (d.text { continuation := .collapseToEnd })).value = .ok d' ∧
        d'.instructions.map (fun i => (i.name, i.flags, i.values)) =
          d.instructions.map (fun i => (upper i.name, i.flags, i.values)) := by
  have h : (parse backslashText).value = .ok ((parse backslashText).value.toOption.getD {}) := by
    decide +kernel
  refine ⟨backslashText, '\x60', _, h, by decide +kernel, by decide +kernel, by decide +kernel,
    by decide +kernel, by decide +kernel, by decide +kernel, ?_⟩
  rintro ⟨d', hparse, hfields⟩
  -- One instruction is read where two are written.
  have hone : (parse (((parse backslashText).value.toOption.getD {}).text
      { continuation := .collapseToEnd })).value.toOption.map (·.instructions.length) = some 1 := by
    decide +kernel
  rw [hparse] at hone
  have hlength : d'.instructions.length = 1 := Option.some.inj hone
  have hfieldsLength := congrArg List.length hfields
  rw [List.length_map, List.length_map, hlength] at hfieldsLength
  exact absurd hfieldsLength (by decide +kernel)

end Document

end Dockerfile
