import Dockerfile.Proofs.Reading
import Dockerfile.Proofs.Statement.LeftOpen

/-!
# Heredocs and their bodies

An instruction that opens heredocs has the body of each of them below its first line, unless the
text ends on a line of it that goes on. Then it has none.

* `Instruction.headerLine`, `Instruction.HasBodies`: the line that opens the heredocs, and the
  bodies below it.
* `Document.parse_heredocs`: which instructions of a text have the bodies of their heredocs.
* `Document.exists_without_bodies`: one that has none.
-/

namespace Dockerfile

open Text

namespace Instruction

/-- The line that the instruction was read from, without heredocs. -/
def headerLine (i : Instruction) : Text := i.source.takeWhile (· ≠ '\n')

/-- Below its first line, the instruction has the bodies of the heredocs that the line opens, each
with its terminator, and nothing else. -/
def HasBodies (i : Instruction) : Prop :=
  ∃ body, (∀ l ∈ body, '\n' ∉ l) ∧ i.source = unlines (i.headerLine :: body) ∧
    Heredoc.FilledBy (Heredoc.openedBy i.headerLine) body

/-- The last line with something to read belongs to the instruction, and it goes on. -/
def LeftOpen (escape : Char) (lines : List Text) (i : Instruction) : Prop :=
  ∃ n, Statement.GoesOnAt escape lines n ∧ i.first ≤ n ∧ n ≤ i.last

theorem not_hasBodies_of_source_eq {i : Instruction} (h : i.source = i.headerLine)
    (hopened : Heredoc.openedBy i.headerLine ≠ []) : ¬ i.HasBodies := by
  rintro ⟨body, -, hsource, hfilled⟩
  rw [unlines_cons (hfilled.body_ne_nil hopened)] at hsource
  have hlength := congrArg List.length (h.symm.trans hsource)
  simp at hlength

end Instruction

namespace Statement

variable {s : Statement}

theorem headerLine_toInstruction (h : '\n' ∉ s.text) : s.toInstruction.headerLine = s.text := by
  have hsource : s.toInstruction.source = s.source := rfl
  rw [Instruction.headerLine, hsource, source]
  split
  · simpa using takeWhile_ne_lineFeed h []
  · rw [takeWhile_ne_lineFeed h, List.takeWhile_cons_of_neg (by decide), List.append_nil]

theorem hasBodies_toInstruction (hchars : s.Chars (· ≠ '\n'))
    (hfilled : Heredoc.FilledBy (Heredoc.openedBy s.text) s.body) :
    s.toInstruction.HasBodies := by
  have hheader := headerLine_toInstruction fun hmem => hchars.1 _ hmem rfl
  rw [Instruction.HasBodies, hheader]
  exact ⟨s.body, fun l hl hmem => hchars.2 l hl _ hmem rfl, s.source_eq_unlines, hfilled⟩

end Statement

/-- No escape character belongs to the terminator of a heredoc. -/
theorem Escape.isWordChar_of_isValid {c : Char} (h : isValid c) : Heredoc.isWordChar c = false := by
  rw [isValid, Bool.or_eq_true, beq_iff_eq, beq_iff_eq] at h
  rcases h with rfl | rfl <;> decide

namespace Document

/-- A text is malformed, or each of its instructions that opens heredocs has their bodies, unless
the text ends on a line of it that goes on; then it has none. -/
theorem parse_heredocs (text : Text) :
    (∃ line detail, (parse text).value = .error (.malformed line detail)) ∨
      ∃ d escape, (parse text).value = .ok d ∧
        Escape.effective defaultEscape (lines text) = .ok escape ∧
        ∀ i ∈ d.instructions, Heredoc.openedBy i.headerLine ≠ [] →
          (i.HasBodies ↔ ¬ i.LeftOpen escape (lines text)) ∧
          (i.LeftOpen escape (lines text) → i.source = i.headerLine) := by
  cases h : (parse text).value with
  | error e =>
    obtain ⟨line, detail, rfl⟩ := parse_eq_error h
    exact .inl ⟨line, detail, rfl⟩
  | ok d =>
    obtain ⟨escape, ss, hescape, hss, -, -, hd⟩ := parse_eq_ok.mp h
    have hchars := Statement.ofLines_chars (P := (· ≠ '\n')) (by decide)
      (fun l hl c hc => (mem_of_mem_lines hl hc).2) hss
    have hword : Heredoc.isWordChar escape = false :=
      Escape.isWordChar_of_isValid (Escape.isValid_of_effective (by decide) hescape)
    refine .inr ⟨d, escape, rfl, hescape, ?_⟩
    rw [hd, List.forall_mem_map]
    intro s hs hopened
    have hheader := Statement.headerLine_toInstruction fun hmem => (hchars s hs).1 _ hmem rfl
    rw [hheader] at hopened
    have hopen : s.toInstruction.LeftOpen escape (lines text) ↔ s.LeftOpen escape (lines text) :=
      Iff.rfl
    rw [hopen]
    rcases Statement.ofLines_filled hss hword hs hopened with ⟨hleft, hbody⟩ | ⟨hleft, hfilled⟩
    · have hsource : s.toInstruction.source = s.toInstruction.headerLine := by
        rw [hheader]
        exact if_pos hbody
      have hnone := Instruction.not_hasBodies_of_source_eq hsource (by rwa [hheader])
      exact ⟨iff_of_false hnone (not_not_intro hleft), fun _ => hsource⟩
    · have hbodies := Statement.hasBodies_toInstruction (hchars s hs) hfilled
      exact ⟨iff_of_true hbodies hleft, fun h => absurd h hleft⟩

/-- A text with two heredocs on a line, and with one more on a line that goes on. -/
def heredocText : Text := "COPY <<-A <<'B' x\n\tA\n# b\nB\nRUN cat <<E \\\n# E\n".toList

theorem parse_heredocs_heredocText :
    ∃ d i, (parse heredocText).value = .ok d ∧ i ∈ d.instructions ∧
      Heredoc.openedBy i.headerLine = [⟨['A'], true⟩, ⟨['B'], false⟩] ∧ i.HasBodies := by
  have h : (parse heredocText).value = .ok ((parse heredocText).value.toOption.getD {}) := by
    decide +kernel
  rcases parse_heredocs heredocText with ⟨line, detail, herror⟩ | ⟨d, escape, hd, -, hbodies⟩
  · rw [h] at herror
    cases herror
  · rw [h] at hd
    cases hd
    let copy : Instruction :=
      { name := "COPY".toList, values := ["<<-A", "<<'B'", "x\n\tA\n# b\nB"].map String.toList
        first := 1, last := 4, source := "COPY <<-A <<'B' x\n\tA\n# b\nB".toList }
    have hmem : copy ∈ ((parse heredocText).value.toOption.getD {}).instructions := by
      decide +kernel
    have hopened : Heredoc.openedBy copy.headerLine = [⟨['A'], true⟩, ⟨['B'], false⟩] := by
      decide +kernel
    refine ⟨_, copy, h, hmem, hopened, (hbodies copy hmem (by simp [hopened])).1.mpr ?_⟩
    rintro ⟨n, ⟨k, line, rfl, -, -, -, hidle⟩, -, hlast⟩
    -- The line behind the instruction has something to read.
    have hrun : Statement.Idle "RUN cat <<E \\".toList :=
      hidle 4 _ (Nat.lt_of_succ_le hlast) (by decide +kernel)
    exact absurd (Statement.isSkipped_trim_iff.mpr hrun) (by decide +kernel)

/-- A text that opens a heredoc on a line that goes on. -/
def openText : Text := "RUN cat <<EOF \\".toList

/-- An instruction may be read without the bodies of its heredocs. -/
theorem exists_without_bodies :
    ∃ d i, (parse openText).value = .ok d ∧ i ∈ d.instructions ∧
      i.keyword? = some .run ∧ Heredoc.openedBy i.headerLine ≠ [] ∧ ¬ i.HasBodies := by
  have h : (parse openText).value = .ok ((parse openText).value.toOption.getD {}) := by
    decide +kernel
  let run : Instruction :=
    { name := "RUN".toList, values := ["cat <<EOF".toList], first := 1, last := 1
      source := "RUN cat <<EOF".toList }
  have hopened : Heredoc.openedBy run.headerLine ≠ [] := by decide +kernel
  have hbodies : ¬ run.HasBodies :=
    Instruction.not_hasBodies_of_source_eq (by decide +kernel) hopened
  exact ⟨_, run, h, by decide +kernel, by decide, hopened, hbodies⟩

end Document

end Dockerfile
