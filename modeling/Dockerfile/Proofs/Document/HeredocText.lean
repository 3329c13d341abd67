import Dockerfile.Proofs.Document.Heredoc
import Dockerfile.Proofs.Reading.Heredoc
import Dockerfile.Proofs.Statement.Header

/-!
# Heredocs in the text of an instruction

The body of a heredoc is written behind what the header alone is written as. A line feed stands
between them if the header has a value. Otherwise the body is the only value, and its first line is
written on the header line.

* `Instruction.WritesBelow`: an instruction that is written on one line, with its body below.
* `Document.render_heredoc`: which instructions of a text are written so.
* `Document.exists_body_on_header`: one that is not.
-/

namespace Dockerfile

open Text

/-- The instruction is written on one line, and the given lines stand below it. -/
def Instruction.WritesBelow (body : List Text) (i : Instruction) : Prop :=
  ∃ header, '\n' ∉ header ∧ i.render = header ++ '\n' :: unlines body

namespace Statement

variable {s : Statement}

/-- No entry point opens a heredoc. -/
theorem keyword?_ne_entrypoint (h : Heredoc.openedBy s.text ≠ []) :
    s.keyword? ≠ some .entrypoint := by
  intro hkeyword
  have hword : Keyword.ofName? (firstWord s.text) = some .entrypoint := hkeyword
  rw [Heredoc.openedBy, hword] at h
  exact h rfl

theorem values_ofHeader (s : Statement) : (Instruction.ofHeader s.text).values = s.lineValues := rfl

/-- A header is written the same with and without lines below it. -/
theorem render_ofHeader (h : s.keyword? ≠ some .entrypoint) :
    (Instruction.ofHeader s.text).render = s.header := by
  have hrender := render_toInstruction (s := { text := s.text, first := 1, last := 1 }) h
  rwa [if_pos rfl, List.append_nil] at hrender

end Statement

namespace Instruction

variable {i : Instruction} {header : Text} {body : List Text}

/-- Only a line feed behind the header puts the body below it. -/
theorem writesBelow_iff {c : Char} (hheader : '\n' ∉ header)
    (h : i.render = header ++ c :: unlines body) : i.WritesBelow body ↔ c = '\n' := by
  constructor
  · rintro ⟨header', -, hrender⟩
    have hsame := h.symm.trans hrender
    have hlength := congrArg List.length hsame
    simp only [List.length_append, List.length_cons] at hlength
    obtain ⟨-, hcons⟩ := List.append_inj hsame (by omega)
    exact (List.cons.inj hcons).1
  · rintro rfl
    exact ⟨header, hheader, h⟩

end Instruction

namespace Document

variable {text : Text} {d : Document} {i : Instruction}

/-- An instruction with heredocs is written as its header and the lines of their bodies, exactly as
they stand in the text. These lines stand below the header if it has a value, and only then. -/
theorem render_heredoc (h : (parse text).value = .ok d) (hi : i ∈ d.instructions)
    (hbody : i.source ≠ i.headerLine) :
    ∃ above body below, lines text = above ++ (body ++ below) ∧ body ≠ [] ∧
      i.last = above.length + body.length ∧ i.source = i.headerLine ++ '\n' :: unlines body ∧
      '\n' ∉ (Instruction.ofHeader i.headerLine).render ∧
      i.render = (Instruction.ofHeader i.headerLine).render ++
        (if (Instruction.ofHeader i.headerLine).values = [] then ' ' else '\n') :: unlines body ∧
      (i.WritesBelow body ↔ (Instruction.ofHeader i.headerLine).values ≠ []) := by
  obtain ⟨escape, ss, -, hss, -, hnames, hd⟩ := parse_eq_ok.mp h
  rw [hd] at hi
  obtain ⟨s, hs, rfl⟩ := List.mem_map.mp hi
  have hchars := Statement.ofLines_chars (P := (· ≠ '\n')) (by decide)
    (fun l hl c hc => (mem_of_mem_lines hl hc).2) hss s hs
  have hheader := Statement.headerLine_toInstruction fun hmem => hchars.1 _ hmem rfl
  rw [hheader] at hbody ⊢
  have hne : s.body ≠ [] := fun hnil => hbody (if_pos hnil)
  rcases Statement.ofLines_readFrom hss hs with ⟨hread, hcomplete⟩ | ⟨-, -, -, -, -, hnil⟩
  · obtain ⟨above, header, below, hlines, -, -, -, hlast⟩ := hread
    have hentry : s.keyword? ≠ some .entrypoint := Statement.keyword?_ne_entrypoint fun hopened => by
      have hfilled := hcomplete.filled
      rw [hopened, Heredoc.filledBy_nil] at hfilled
      exact hne hfilled
    have hrender := Statement.render_toInstruction hentry
    rw [if_neg hne, ← Statement.render_ofHeader hentry, ← Statement.values_ofHeader] at hrender
    have hline : '\n' ∉ (Instruction.ofHeader s.text).render := by
      rw [Statement.render_ofHeader hentry]
      exact Statement.lineFeed_not_mem_header (hnames s hs) hentry hchars
    refine ⟨above ++ header, s.body, below, by rw [hlines, List.append_assoc], hne, ?_, if_neg hne,
      hline, hrender, ?_⟩
    · rw [List.length_append, Nat.add_assoc]
      exact hlast
    · rw [Instruction.writesBelow_iff hline hrender]
      split
      · rename_i hvalues
        simp [hvalues]
      · rename_i hvalues
        simp [hvalues]
  · exact absurd hnil hne

/-- A flag and a value open heredocs. -/
def flaggedText : Text := "FROM a\nCOPY --x=<<'A' \\\n <<-B /y\nx\nA\n# b\n\tB\nUSER c".toList

def flaggedCopy : Instruction :=
  { name := "COPY".toList, flags := ["--x=<<'A'".toList]
    values := ["<<-B".toList, "/y\nx\nA\n# b\n\tB".toList]
    first := 2, last := 7, source := "COPY --x=<<'A' <<-B /y\nx\nA\n# b\n\tB".toList }

theorem render_heredoc_flaggedText :
    ∃ d, (parse flaggedText).value = .ok d ∧ flaggedCopy ∈ d.instructions ∧
      ∃ body, flaggedCopy.source = "COPY --x=<<'A' <<-B /y".toList ++ '\n' :: unlines body ∧
        flaggedCopy.WritesBelow body := by
  have h : (parse flaggedText).value =
      .ok ⟨(Reader.byLines {} flaggedText).value.toOption.getD []⟩ := by
    decide +kernel
  have hmem : flaggedCopy ∈ (Reader.byLines {} flaggedText).value.toOption.getD [] := by
    decide +kernel
  have hheader : flaggedCopy.headerLine = "COPY --x=<<'A' <<-B /y".toList := by decide +kernel
  obtain ⟨-, body, -, -, -, -, hsource, -, -, hbelow⟩ :=
    render_heredoc h hmem (by decide +kernel)
  rw [hheader] at hsource hbelow
  exact ⟨_, h, hmem, body, hsource, hbelow.mpr (by decide +kernel)⟩

/-- A flag opens a heredoc, and no value stands behind it. -/
def bareFlagText : Text := "RUN --mount=<<E\nx\nE".toList

def bareFlagRun : Instruction :=
  { name := "RUN".toList, flags := ["--mount=<<E".toList], values := ["x\nE".toList]
    first := 1, last := 3, source := "RUN --mount=<<E\nx\nE".toList }

theorem exists_body_on_header :
    (parse bareFlagText).value = .ok ⟨[bareFlagRun]⟩ ∧
      bareFlagRun.source = bareFlagRun.headerLine ++ '\n' :: unlines ["x".toList, "E".toList] ∧
      bareFlagRun.render = "RUN --mount=<<E x\nE".toList ∧
      ¬ bareFlagRun.WritesBelow ["x".toList, "E".toList] := by
  have hrender : bareFlagRun.render =
      "RUN --mount=<<E".toList ++ ' ' :: unlines ["x".toList, "E".toList] := by
    decide +kernel
  refine ⟨by decide +kernel, by decide +kernel, hrender, ?_⟩
  rw [Instruction.writesBelow_iff (by decide) hrender]
  decide

end Document

end Dockerfile
