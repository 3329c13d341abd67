import Dockerfile.Proofs.Directive
import Dockerfile.Proofs.Reading
import Dockerfile.Proofs.Statement.Complete
import Dockerfile.Proofs.Text.Case
import Dockerfile.Proofs.Text.Word

/-!
# Texts of one line

* `Text.firstWord_spaced`, `Text.afterFirstWord_spaced`: a keyword, a space and what follows it.
* `Statement.ofLines_line`: a line that does not go on and opens no heredoc is a statement.
* `Reader.byLines_line`, `Reader.byLines_spaced`: such a line is read as one instruction, if it
  starts with a keyword.
-/

namespace Dockerfile

open Text

variable {line name rest : Text}

namespace Text

/-- The first word stands at the start of a trimmed text. -/
theorem exists_eq_cons_of_firstWord (ht : Trimmed line) (h : isAlphanum (firstWord line)) :
    ∃ c rest, line = c :: rest ∧ c.isAlphanum := by
  obtain ⟨hne, hall⟩ := isAlphanum_iff.mp h
  obtain ⟨c, word, hword⟩ := List.exists_cons_of_ne_nil hne
  obtain ⟨sep, -, hline, -⟩ := exists_firstWord ht
  rw [hword] at hline hall
  exact ⟨c, _, hline, hall c List.mem_cons_self⟩

theorem trimmed_spaced (hname : isAlphanum name) (ht : NoTrail rest) (hne : rest ≠ []) :
    Trimmed (name ++ ' ' :: rest) := by
  obtain ⟨hname, hall⟩ := isAlphanum_iff.mp hname
  obtain ⟨c, word, rfl⟩ := List.exists_cons_of_ne_nil hname
  have hcut : c :: word ++ ' ' :: rest = (c :: word ++ [' ']) ++ rest := by simp
  refine ⟨noLead_cons.mpr (isSpace_of_isAlphanum (hall c List.mem_cons_self)), ?_⟩
  rw [hcut]
  exact ht.append hne

theorem firstWord_spaced (hname : isAlphanum name) (ht : NoTrail rest) (hne : rest ≠ []) :
    firstWord (name ++ ' ' :: rest) = name :=
  firstWord_append (trimmed_spaced hname ht hne)
    (fun c hc => isSpace_of_isAlphanum ((isAlphanum_iff.mp hname).2 c hc))
    (fun c hc => by cases hc; decide)

theorem afterFirstWord_spaced (hname : isAlphanum name) (ht : Trimmed rest) (hne : rest ≠ []) :
    afterFirstWord (name ++ ' ' :: rest) = rest := by
  rw [afterFirstWord_append (trimmed_spaced hname ht.2 hne)
    (fun c hc => isSpace_of_isAlphanum ((isAlphanum_iff.mp hname).2 c hc))
    (fun c hc => by cases hc; decide), trimStart_space, ht.1.trimStart_eq]

end Text

namespace Statement

/-- A line that does not go on and opens no heredoc is a statement. -/
theorem ofLines_line {escape : Char} (ht : Trimmed line) (hskip : isSkipped line = false)
    (hlast : line.getLast? ≠ some escape) (hopened : Heredoc.openedBy line = []) :
    ofLines escape [line] = .ok [{ text := line, first := 1, last := 1 }] := by
  have hne : line ≠ [] := by
    rintro rfl
    cases hskip
  have hrun : Phase.between.run escape 1 [line] =
      (.between, [{ text := line, first := 1, last := 1 }]) := by
    simp [Phase.step_between ht hskip hlast, Phase.close, hopened, keep, hne, Phase.run]
  exact ofLines_eq_ok.mpr ⟨[], by rw [hrun]; rfl, by rw [hrun]; rfl⟩

end Statement

namespace Reader

variable {options : ReadOptions}

/-- A line with a keyword that does not go on and opens no heredoc is an instruction. -/
theorem byLines_line (ht : Trimmed line) (hn : '\n' ∉ line)
    (hname : isAlphanum (firstWord line)) (hlast : line.getLast? ≠ some options.escape)
    (hopened : Heredoc.openedBy line = []) :
    (byLines options line).value =
      .ok [({ text := line, first := 1, last := 1 } : Statement).toInstruction] := by
  obtain ⟨c, rest, rfl, hc⟩ := exists_eq_cons_of_firstWord ht hname
  have hcomment : c ≠ '#' := ne_of_isAlphanum hc (by decide)
  have hlines : lines (c :: rest) = [c :: rest] := lines_of_lineFeed_not_mem hn (by simp)
  have hskip : Statement.isSkipped (c :: rest) = false := by simpa [Statement.isSkipped]
  have hdirective : Directive.ofLine? (c :: rest) = none :=
    Directive.ofLine?_of_trimmed ht (by simpa using hcomment)
  refine byLines_eq_ok.mpr ⟨options.escape, [{ text := c :: rest, first := 1, last := 1 }], ?_, ?_,
    by simp, List.forall_mem_singleton.mpr hname, rfl⟩
  · rw [hlines]
    exact Escape.effective_of_undirected (Escape.undirected_of_head? (by simpa using hdirective))
  · rw [hlines]
    exact Statement.ofLines_line ht hskip hlast hopened

/-- A keyword that opens no heredoc, a space and what follows it. -/
theorem byLines_spaced (hname : isAlphanum name)
    (hopen : Heredoc.canOpen (Keyword.ofName? name) = false) (ht : Trimmed rest) (hne : rest ≠ [])
    (hn : '\n' ∉ rest) (hlast : rest.getLast? ≠ some options.escape) :
    (byLines options (name ++ ' ' :: rest)).value =
      .ok [({ text := name ++ ' ' :: rest, first := 1, last := 1 } : Statement).toInstruction] := by
  have hword := firstWord_spaced hname ht.2 hne
  refine byLines_line (trimmed_spaced hname ht.2 hne) ?_ (by rwa [hword]) ?_ ?_
  · rw [List.mem_append, List.mem_cons]
    rintro (hmem | hspace | hmem)
    · exact absurd ((isAlphanum_iff.mp hname).2 _ hmem) (by decide)
    · cases hspace
    · exact hn hmem
  · rwa [List.getLast?_append, List.getLast?_cons_of_ne_nil hne,
      List.getLast?_eq_some_getLast hne, Option.some_or, ← List.getLast?_eq_some_getLast hne]
  · rw [Heredoc.openedBy, hword, hopen]
    rfl

end Reader

end Dockerfile
