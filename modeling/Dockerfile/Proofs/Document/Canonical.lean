import Dockerfile.Proofs.Argument.Spaced
import Dockerfile.Proofs.Document.RoundTrip
import Mathlib.Tactic.MkIffOfInductiveProp

/-!
# Canonical texts

* `Statement.CanonicalLine`: the lines that an instruction would be written on.
* `Document.Canonical`: the texts of such lines, empty lines and heredocs.
* `Statement.CanonicalLines.reproduced`: such lines are those that their statements are written on.
* `Document.text_of_canonical`: a canonical text is written as it was read, by either policy.
-/

namespace Dockerfile

namespace Statement

open Text Argument Heredoc

variable {line : Text} {n lo : Nat} {ls more : List Text} {last : List Statement}

/-- A line with an instruction other than an entry point: the keyword in capital letters, and single
spaces behind it, behind each flag, and between the values, if the instruction takes a list of them.
If it opens heredocs, it has a value. -/
@[mk_iff]
structure CanonicalLine (line : Text) : Prop where
  trimmed : Trimmed line
  getLast?_ne : line.getLast? ≠ some defaultEscape
  firstWord_ne_nil : firstWord line ≠ []
  capital : (firstWord line).all fun c => c.isUpper || c.isDigit
  keyword : Keyword.ofName? (firstWord line) ≠ some .entrypoint
  after_keyword : afterFirstWord line = [] ∧ line = firstWord line ∨
    afterFirstWord line ≠ [] ∧ line = firstWord line ++ ' ' :: afterFirstWord line
  flags : SingleSpaced isFlag (afterFirstWord line)
  values : takesText (Keyword.ofName? (firstWord line)) = false →
    SingleSpaced (fun _ => true) (spanFlags (afterFirstWord line)).2
  value : openedBy line ≠ [] → (spanFlags (afterFirstWord line)).2 ≠ []

instance : Decidable (CanonicalLine line) := decidable_of_iff _ (canonicalLine_iff line).symm

/-- Whether the next line belongs to a heredoc. -/
def Phase.inBody : Phase → Bool
  | inHeredoc .. => true
  | _ => false

/-- The lines outside heredocs are empty or canonical, where the reader stands in the given phase
before the first of them, which has the number `n`. -/
def CanonicalLines : Phase → Nat → List Text → Prop
  | _, _, [] => True
  | phase, n, line :: rest =>
    (phase.inBody = false → line = [] ∨ CanonicalLine line) ∧
      CanonicalLines (phase.step defaultEscape n line).1 (n + 1) rest

instance decidableCanonicalLines :
    (phase : Phase) → (n : Nat) → (ls : List Text) → Decidable (CanonicalLines phase n ls)
  | _, _, [] => .isTrue trivial
  | phase, n, line :: rest =>
    haveI := decidableCanonicalLines (phase.step defaultEscape n line).1 (n + 1) rest
    inferInstanceAs (Decidable ((phase.inBody = false → line = [] ∨ CanonicalLine line) ∧
      CanonicalLines (phase.step defaultEscape n line).1 (n + 1) rest))

theorem CanonicalLines.of_append {phase : Phase} (h : CanonicalLines phase n (ls ++ more)) :
    CanonicalLines (phase.run defaultEscape n ls).1 (n + ls.length) more := by
  induction ls generalizing phase n with
  | nil => exact h
  | cons line ls ih =>
    have hn : n + 1 + ls.length = n + (line :: ls).length := by
      rw [List.length_cons]
      omega
    rw [← hn]
    exact ih h.2

/-! ## One line -/

namespace CanonicalLine

variable {s : Statement}

theorem isAlphanum_firstWord (h : CanonicalLine line) : isAlphanum (firstWord line) := by
  refine isAlphanum_iff.mpr ⟨h.firstWord_ne_nil, fun c hc => ?_⟩
  have hcapital := List.all_eq_true.mp h.capital c hc
  show ((c.isUpper || c.isLower) || c.isDigit) = true
  rcases Bool.or_eq_true_iff.mp hcapital with hc | hc <;> simp [hc]

theorem upper_firstWord (h : CanonicalLine line) : upper (firstWord line) = firstWord line := by
  have hword := h.isAlphanum_firstWord
  have hcapital : ∀ c ∈ firstWord line, c.toUpper = c := fun c hc =>
    forall_ascii (P := fun c => (c.isUpper || c.isDigit) = true → c.toUpper = c)
      (by decide +kernel) (toNat_lt_of_isAlphanum ((isAlphanum_iff.mp hword).2 c hc))
      (List.all_eq_true.mp h.capital c hc)
  rw [upper_of_isAlphanum hword, List.map_congr_left hcapital, List.map_id']

theorem plain (h : CanonicalLine s.text) : s.Plain :=
  ⟨h.trimmed, h.isAlphanum_firstWord, h.keyword⟩

/-- A canonical line is written as it is. -/
theorem header_eq (h : CanonicalLine s.text) : s.header = s.text := by
  have hvalues : s.lineValues.flatMap (' ' :: ·) = if s.rest = [] then [] else ' ' :: s.rest := by
    rcases lineValues_cases h.keyword with
      ⟨hrest, hvalues⟩ | ⟨hrest, -, hvalues⟩ | ⟨hrest, htakes, hvalues⟩
    · simp [hrest, hvalues]
    · simp [hrest, hvalues]
    · rw [hvalues, if_neg hrest]
      exact ((h.values htakes).split_eq hrest).symm
  rw [header, List.flatMap_append, hvalues]
  show upper (firstWord s.text) ++ _ = _
  rw [h.upper_firstWord]
  rcases h.after_keyword with ⟨hafter, htext⟩ | ⟨hafter, htext⟩
  · simp [Statement.flags, Statement.rest, hafter, ← htext]
  · exact (congrArg (firstWord s.text ++ ·) (h.flags.spanFlags_eq hafter)).symm.trans htext.symm

theorem lineValues_ne_nil (h : CanonicalLine s.text) (hopened : openedBy s.text ≠ []) :
    s.lineValues ≠ [] := by
  have hrest : s.rest ≠ [] := h.value hopened
  rcases lineValues_cases h.keyword with ⟨hnil, -⟩ | ⟨-, -, hvalues⟩ | ⟨-, -, hvalues⟩
  · contradiction
  · simp [hvalues]
  · rw [hvalues]
    exact h.plain.split_rest_ne_nil hrest

/-- A canonical line is no comment. -/
theorem head?_ne (h : CanonicalLine line) : '#' ∉ line.head? := by
  let s : Statement := { text := line, first := 0, last := 0 }
  have hs : CanonicalLine s.text := h
  obtain ⟨c, rest, hcons, hc⟩ := hs.plain.exists_header_eq_cons
  have hline : line = c :: rest := hs.header_eq.symm.trans hcons
  rw [hline]
  simpa using ne_of_isAlphanum hc (by decide)

theorem ne_nil (h : CanonicalLine line) : line ≠ [] := by
  rintro rfl
  exact h.firstWord_ne_nil rfl

theorem isSkipped_eq (h : CanonicalLine line) : isSkipped line = false := by
  obtain ⟨c, rest, rfl⟩ := List.exists_cons_of_ne_nil h.ne_nil
  simpa [isSkipped] using h.head?_ne

end CanonicalLine

/-! ## All lines -/

/-- A canonical line is read as a statement, with the lines of its heredocs below it. -/
theorem CanonicalLine.exists_run {ls : List Text} (h : CanonicalLine line)
    (hfinish : (Phase.between.run defaultEscape n (line :: ls)).1.finish = .ok last) :
    ∃ body rest, ls = body ++ rest ∧ FilledBy (openedBy line) body ∧
      Phase.between.run defaultEscape n (line :: body) =
        (.between, [{ text := line, body, first := n, last := n + body.length }]) := by
  have hbody : ∃ body rest, ls = body ++ rest ∧ FilledBy (openedBy line) body := by
    cases hopened : openedBy line with
    | nil => exact ⟨[], ls, rfl, .done⟩
    | cons marker later =>
      rw [Phase.run_cons, Phase.step_between h.trimmed h.isSkipped_eq h.getLast?_ne, Phase.close,
        hopened] at hfinish
      exact Phase.exists_filled hfinish
  obtain ⟨body, rest, hls, hfilled⟩ := hbody
  have hcomplete : Complete defaultEscape { text := line, body, first := n, last := n } :=
    ⟨h.trimmed, h.ne_nil, h.getLast?_ne, hfilled⟩
  exact ⟨body, rest, hls, hfilled, Phase.run_source hcomplete h.isSkipped_eq⟩

/-- A canonical line, and the lines of its heredocs below it. -/
structure Exact (s : Statement) : Prop where
  line : CanonicalLine s.text
  last_eq : s.last = s.first + s.body.length
  lineValues_ne_nil : s.body ≠ [] → s.lineValues ≠ []

/-- The statements that the lines from number `n` on complete are written on these lines, but for
empty lines behind the last of them. -/
structure Reproduced (n : Nat) (ls : List Text) (ended : Phase × List Statement) : Prop where
  phase_eq : ended.1 = .between
  allExact : ∀ s ∈ ended.2, s.Exact
  lines_eq : ∀ lo < n, ∃ k,
    List.replicate (n - lo - 1) [] ++ ls = written lo ended.2 ++ List.replicate k []

namespace Reproduced

variable {ended : Phase × List Statement}

theorem nil : Reproduced n [] (.between, []) :=
  ⟨rfl, by simp, fun lo _ => ⟨n - lo - 1, by simp [written]⟩⟩

theorem blank (h : Reproduced (n + 1) ls ended) : Reproduced n ([] :: ls) ended := by
  refine ⟨h.phase_eq, h.allExact, fun lo hlo => ?_⟩
  obtain ⟨k, hk⟩ := h.lines_eq lo (by omega)
  have hgap : n + 1 - lo - 1 = n - lo - 1 + 1 := by omega
  rw [hgap, List.replicate_succ', List.append_assoc] at hk
  exact ⟨k, hk⟩

theorem statement {body rest : List Text} (hline : CanonicalLine line)
    (hfilled : FilledBy (openedBy line) body) (h : Reproduced (n + body.length + 1) rest ended) :
    Reproduced n (line :: body ++ rest)
      (ended.1, { text := line, body, first := n, last := n + body.length } :: ended.2) := by
  refine ⟨h.phase_eq, List.forall_mem_cons.mpr ⟨⟨hline, rfl, fun hne => ?_⟩, h.allExact⟩,
    fun lo _ => ?_⟩
  · exact hline.lineValues_ne_nil fun hopened => hne (filledBy_nil.mp (hopened ▸ hfilled))
  · obtain ⟨k, hk⟩ := h.lines_eq (n + body.length) (Nat.lt_succ_self _)
    have hgap : n + body.length + 1 - (n + body.length) - 1 = 0 := by omega
    rw [hgap, List.replicate_zero, List.nil_append] at hk
    refine ⟨k, ?_⟩
    rw [written, hline.header_eq, List.append_assoc, ← hk, List.append_assoc]

end Reproduced

/-- Canonical lines are those that their statements are written on. -/
theorem CanonicalLines.reproduced (h : CanonicalLines .between n ls)
    (hfinish : (Phase.between.run defaultEscape n ls).1.finish = .ok last) :
    Reproduced n ls (Phase.between.run defaultEscape n ls) := by
  -- A statement takes several lines, so the induction is on their number.
  induction hlen : ls.length using Nat.strong_induction_on generalizing n ls with
  | _ len ih =>
    subst hlen
    cases ls with
    | nil => exact .nil
    | cons line ls =>
      rcases h.1 rfl with rfl | hline
      · exact (ih ls.length (Nat.lt_succ_self _) h.2 hfinish rfl).blank
      · obtain ⟨body, rest, rfl, hfilled, hsource⟩ := hline.exists_run hfinish
        rw [← List.cons_append] at h hfinish ⊢
        have hlength : n + (line :: body).length = n + body.length + 1 := by
          rw [List.length_cons]
          omega
        have hlt : rest.length < (line :: body ++ rest).length := by
          rw [List.length_append, List.length_cons]
          omega
        have hrest := h.of_append
        rw [Phase.run_append, hsource, hlength] at hfinish ⊢
        rw [hsource, hlength] at hrest
        exact .statement hline hfilled (ih rest.length hlt hrest hfinish rfl)

theorem CanonicalLines.undirected (h : CanonicalLines .between n ls) : Escape.Undirected ls := by
  refine Escape.undirected_of_head? fun line hline => ?_
  cases ls with
  | nil => cases hline
  | cons first ls =>
    cases hline
    rcases h.1 rfl with rfl | hcanonical
    · rfl
    · exact Directive.ofLine?_of_trimmed hcanonical.trimmed hcanonical.head?_ne

end Statement

namespace Document

open Text Statement

variable {text : Text} {d : Document}

/-- Single line feeds separate the lines of the text, and the lines outside heredocs are empty or
canonical. -/
@[mk_iff]
structure Canonical (text : Text) : Prop where
  noReturn : '\r' ∉ text
  getLast?_ne : text.getLast? ≠ some '\n'
  canonicalLines : CanonicalLines .between 1 (lines text)

instance : Decidable (Canonical text) := decidable_of_iff _ (canonical_iff text).symm

/-- A canonical text is written as it was read. -/
theorem text_of_canonical (h : (parse text).value = .ok d) (hc : Canonical text)
    (options : RenderOptions) : d.text options = text := by
  obtain ⟨escape, ss, hescape, hss, -, -, hd⟩ := parse_eq_ok.mp h
  rw [Escape.effective_of_undirected hc.canonicalLines.undirected] at hescape
  cases hescape
  obtain ⟨last, hfinish, hrun⟩ := ofLines_eq_ok.mp hss
  obtain ⟨hend, hexact, hwritten⟩ := hc.canonicalLines.reproduced hfinish
  rw [hend] at hfinish
  cases hfinish
  rw [List.append_nil] at hrun
  have hentry : ∀ i ∈ d.instructions, i.keyword? ≠ some .entrypoint := by
    intro i hi
    rw [hd, hrun] at hi
    obtain ⟨s, hs, rfl⟩ := List.mem_map.mp hi
    exact (hexact s hs).line.keyword
  obtain ⟨_, rfl, hne, hwritable, hd⟩ := writable_of_parse h hc.noReturn
    hc.canonicalLines.undirected hentry hend fun s hs => (hexact s hs).lineValues_ne_nil
  have hunwritten : ∀ s ∈ (Phase.between.run defaultEscape 1 (lines text)).2,
      s.toInstruction.unwritten = 0 := by
    intro s hs
    have hlast := (hexact s hs).last_eq
    rw [Instruction.unwritten, (hwritable s hs).lineFeeds_render]
    show s.last - s.first - s.body.length = 0
    omega
  have htext := text_eq_unlines_written (c := options.continuation) hd (fits_of_parse h hentry)
    hwritable (.inr hunwritten)
  -- Only empty lines could follow the written ones, but the text does not end with one.
  obtain ⟨k, hk⟩ := hwritten 0 (Nat.zero_lt_one)
  have hlines : lines text = written 0 (Phase.between.run defaultEscape 1 (lines text)).2 := by
    cases k with
    | zero => simpa using hk
    | succ k =>
      have hlast := getLast?_lines_ne hc.noReturn hc.getLast?_ne
      rw [List.replicate_succ', ← List.append_assoc] at hk
      have hempty : (lines text).getLast? = some [] := by
        rw [show lines text = _ from hk, List.getLast?_concat]
      contradiction
  calc d.text options
      = unlines (written 0 (Phase.between.run defaultEscape 1 (lines text)).2) := htext
    _ = unlines (lines text) := by rw [← hlines]
    _ = text := unlines_lines hc.noReturn hc.getLast?_ne

/-- A canonical text with a flag, a heredoc, quoted white space and empty lines. -/
def canonicalText : Text :=
  "FROM a AS b\n\nCOPY --chown=u <<EOF /f\n\n hi\nEOF\nLABEL k=\"v  w\" n=1".toList

theorem text_of_canonical_canonicalText :
    ∃ d, (parse canonicalText).value = .ok d ∧ Canonical canonicalText ∧
      d.text { continuation := .skipSpan } = canonicalText ∧
      d.text { continuation := .collapseToEnd } = canonicalText := by
  have h : (parse canonicalText).value = .ok ((parse canonicalText).value.toOption.getD {}) := by
    decide +kernel
  have hc : Canonical canonicalText := by decide +kernel
  exact ⟨_, h, hc, text_of_canonical h hc _, text_of_canonical h hc _⟩

end Document

end Dockerfile
