import Dockerfile.Proofs.Directive
import Dockerfile.Proofs.Document.Written

/-!
# Reading a written document

* `Document.text_eq_unlines_written`: the lines that the document of a text is written on.
* `Document.undirected_written`, `Document.parse_written`: the document that is read from these
  lines.
* `Document.parse_text`: writing a document and reading it again keeps its instructions, in capital
  letters, and the document that is read is written the same way.
-/

namespace Dockerfile

namespace Document

open Text Statement

variable {text : Text} {d : Document} {ss : List Statement} {c : Continuation} {escape : Char}

/-- The policy ends each instruction on its last source line, or all source lines are written. -/
theorem text_eq_unlines_written (hd : d.instructions = ss.map toInstruction)
    (hfits : Layout.Fits 1 d.instructions) (hss : ∀ s ∈ ss, s.Writable escape)
    (hc : c = .collapseToEnd ∨ ∀ s ∈ ss, s.toInstruction.unwritten = 0) :
    d.text { continuation := c } = unlines (written 0 ss) := by
  rw [hd] at hfits
  have hmem (s : Statement) (hs : s ∈ ss) := List.mem_map_of_mem (f := toInstruction) hs
  have hnext : ∀ s ∈ ss, ∀ line ≤ s.first, Layout.next c line s.toInstruction = s.last := by
    intro s hs line hline
    rcases hc with rfl | hc
    · exact Layout.next_collapseToEnd (hfits.spanned _ (hmem s hs)) hline
    · exact Layout.next_of_unwritten_eq_zero (hfits.spanned _ (hmem s hs)) (hc s hs) hline
  have hbelow : Below 0 ss := .of_fits hfits
  show Layout.render c 1 d.instructions = _
  rw [hd]
  cases ss with
  | nil => rfl
  | cons s ss =>
    obtain ⟨hs, -⟩ := List.forall_mem_cons.mp hnext
    have hlt := hbelow.lt_first s List.mem_cons_self
    have hgap : s.first - 0 = s.first - 1 + 1 := by omega
    have hplace : Layout.place (s.first - 0) s.toInstruction =
        '\n' :: Layout.place (s.first - 1) s.toInstruction := by
      rw [hgap]
      rfl
    -- A cursor on line 0 would put one more line feed before the first instruction.
    have hrender := render_eq_unlines_written hss hbelow hnext (by simp)
    rw [List.map_cons, Layout.render_cons, hs 0 (Nat.zero_le _)] at hrender
    rw [List.map_cons, Layout.render_cons, hs 1 hlt]
    exact List.cons.inj ((congrArg (· ++ _) hplace).symm.trans hrender) |>.2

/-- No directive stands among the lines that statements are written on. -/
theorem undirected_written (hss : ∀ s ∈ ss, s.Writable escape) :
    Escape.Undirected (written 0 ss) := by
  refine Escape.undirected_of_head? fun line hline => ?_
  cases ss with
  | nil => cases hline
  | cons s ss =>
    have hs := hss s List.mem_cons_self
    have hplain : Directive.ofLine? s.header = none := by
      refine Directive.ofLine?_of_trimmed hs.plain.trimmed_header ?_
      obtain ⟨c, rest, hcons, hc⟩ := hs.plain.exists_header_eq_cons
      rw [hcons]
      simpa using ne_of_isAlphanum hc (by decide)
    rw [written] at hline
    cases hgap : s.first - 0 - 1 with
    | zero =>
      rw [hgap] at hline
      cases hline
      exact hplain
    | succ k =>
      rw [hgap] at hline
      cases hline
      rfl

/-- What is written is read as the same statements, with other line numbers. -/
theorem parse_written (hss : ∀ s ∈ ss, s.Writable) (hbelow : Below 0 ss) (hne : ss ≠ []) :
    (parse (unlines (written 0 ss))).value = .ok ⟨(relocate 0 0 ss).map toInstruction⟩ := by
  have hlines : lines (unlines (written 0 ss)) = written 0 ss := lines_unlines_written hss
  refine parse_eq_ok.mpr ⟨defaultEscape, relocate 0 0 ss, ?_, ?_, ?_, ?_, rfl⟩
  · rw [hlines]
    exact Escape.effective_of_undirected (undirected_written hss)
  · have hrun : Phase.between.run defaultEscape 1 (written 0 ss) = (.between, relocate 0 0 ss) :=
      run_written hss hbelow
    rw [hlines, ofLines_eq_ok]
    exact ⟨[], by rw [hrun]; rfl, by rw [hrun, List.append_nil]⟩
  · cases ss with
    | nil => contradiction
    | cons s ss => simp [relocate]
  · exact fun t ht => (writable_relocate hss t ht).plain.isAlphanum

/-! ## Texts -/

/-- The statements of a text with instructions that are no entry points, if the text does not end
in an open statement and heredocs stand below values. -/
theorem writable_of_effective (h : (parse text).value = .ok d) (hreturn : '\r' ∉ text)
    (heffective : Escape.effective defaultEscape (lines text) = .ok escape)
    (hentry : ∀ i ∈ d.instructions, i.keyword? ≠ some .entrypoint)
    (hclosed : (Phase.between.run escape 1 (lines text)).1 = .between)
    (hvalue : ∀ s ∈ (Phase.between.run escape 1 (lines text)).2,
      s.body ≠ [] → s.lineValues ≠ []) :
    ∃ ss, (Phase.between.run escape 1 (lines text)).2 = ss ∧ ss ≠ [] ∧
      (∀ s ∈ ss, s.Writable escape) ∧ d.instructions = ss.map toInstruction := by
  obtain ⟨escape', ss, hescape, hss, hne, hnames, hd⟩ := parse_eq_ok.mp h
  rw [heffective] at hescape
  cases hescape
  have hchars := ofLines_chars (P := fun c => c ≠ '\n' ∧ c ≠ '\r') (by decide)
    (fun l hl c hc => ⟨(mem_of_mem_lines hl hc).2, by
      rintro rfl
      exact hreturn (mem_of_mem_lines hl hc).1⟩) hss
  obtain ⟨last, hlast, rfl⟩ := ofLines_eq_ok.mp hss
  rw [hclosed] at hlast
  cases hlast
  rw [List.append_nil] at hne hnames hd hchars
  refine ⟨_, rfl, hne, fun s hs => ?_, hd⟩
  have hcomplete := complete_of_mem_run hs
  rw [hd] at hentry
  have hkeyword : s.toInstruction.keyword? ≠ some .entrypoint :=
    hentry _ (List.mem_map_of_mem hs)
  exact ⟨⟨hcomplete.trimmed, hnames s hs, hkeyword⟩, hcomplete, hvalue s hs, hchars s hs⟩

/-- The same for texts without an escape directive. -/
theorem writable_of_parse (h : (parse text).value = .ok d) (hreturn : '\r' ∉ text)
    (hdirective : Escape.Undirected (lines text))
    (hentry : ∀ i ∈ d.instructions, i.keyword? ≠ some .entrypoint)
    (hclosed : (Phase.between.run defaultEscape 1 (lines text)).1 = .between)
    (hvalue : ∀ s ∈ (Phase.between.run defaultEscape 1 (lines text)).2,
      s.body ≠ [] → s.lineValues ≠ []) :
    ∃ ss, (Phase.between.run defaultEscape 1 (lines text)).2 = ss ∧ ss ≠ [] ∧
      (∀ s ∈ ss, s.Writable) ∧ d.instructions = ss.map toInstruction :=
  writable_of_effective h hreturn (Escape.effective_of_undirected hdirective) hentry hclosed hvalue

/-- Writing the document of a text and reading it again keeps its instructions up to the case of
their keywords, and the document that is read is written as the first one. -/
theorem parse_text (h : (parse text).value = .ok d) (hreturn : '\r' ∉ text)
    (hdirective : Escape.Undirected (lines text))
    (hentry : ∀ i ∈ d.instructions, i.keyword? ≠ some .entrypoint)
    (hclosed : (Phase.between.run defaultEscape 1 (lines text)).1 = .between)
    (hvalue : ∀ s ∈ (Phase.between.run defaultEscape 1 (lines text)).2,
      s.body ≠ [] → s.lineValues ≠ []) :
    ∃ d', (parse (d.text { continuation := .collapseToEnd })).value = .ok d' ∧
      d'.instructions.map (fun i => (i.name, i.flags, i.values)) =
        d.instructions.map (fun i => (upper i.name, i.flags, i.values)) ∧
      d'.text { continuation := .collapseToEnd } = d.text { continuation := .collapseToEnd } := by
  obtain ⟨ss, -, hne, hss, hd⟩ := writable_of_parse h hreturn hdirective hentry hclosed hvalue
  have hfits := fits_of_parse h hentry
  have htext := text_eq_unlines_written hd hfits hss (.inl rfl)
  rw [hd] at hfits
  have hbelow : Below 0 ss :=
    ⟨fun s hs => hfits.le_first _ (List.mem_map_of_mem (f := toInstruction) hs),
      List.pairwise_map.mp hfits.ordered⟩
  have hparse := parse_written hss hbelow hne
  have hwritable : ∀ t ∈ relocate 0 0 ss, t.Writable := writable_relocate hss
  refine ⟨_, by rw [htext]; exact hparse, ?_, ?_⟩
  · rw [hd]
    exact fields_relocate hss
  · have hentry' : ∀ i ∈ (relocate 0 0 ss).map toInstruction, i.keyword? ≠ some .entrypoint := by
      intro i hi
      obtain ⟨t, ht, rfl⟩ := List.mem_map.mp hi
      exact (hwritable t ht).plain.keyword
    rw [text_eq_unlines_written rfl (fits_of_parse hparse hentry') hwritable (.inl rfl), htext,
      written_relocate hss]

/-- A text with a comment, a continued instruction, a flag, a heredoc and a blank line. -/
def mixedText : Text :=
  "# build\nfrom a  AS b\nRun x \\\n # note\n  y\n\nCOPY --chown=u <<E  /f\n hi\nE\nuser c".toList

theorem parse_text_mixedText :
    ∃ d d', (parse mixedText).value = .ok d ∧
      (parse (d.text { continuation := .collapseToEnd })).value = .ok d' ∧
      d'.instructions.map (fun i => (i.name, i.flags, i.values)) =
        d.instructions.map (fun i => (upper i.name, i.flags, i.values)) ∧
      d'.text { continuation := .collapseToEnd } = d.text { continuation := .collapseToEnd } := by
  have h : (parse mixedText).value = .ok ((parse mixedText).value.toOption.getD {}) := by
    decide +kernel
  exact ⟨_, (parse_text h (by decide +kernel) (by decide +kernel) (by decide +kernel)
    (by decide +kernel) (by decide +kernel)).imp fun d' hd' => ⟨h, hd'⟩⟩

end Document

end Dockerfile
