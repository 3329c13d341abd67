import Dockerfile.Proofs.Reading
import Dockerfile.Proofs.Statement.Lines

/-!
# Heredocs as they stand

The lines below the header of an instruction belong to the heredocs that the header opens: one block
of lines for each of them, up to the first line that ends it. They are kept as they stand.

* `Instruction.ofHeader`: what a header holds without the lines below it.
* `Reader.byLines_heredocs`: the lines of an instruction whose header opens heredocs, its source and
  its values.
-/

namespace Dockerfile

open Text

/-- The instruction that a header alone holds, as a text of one line. -/
def Instruction.ofHeader (header : Text) : Instruction :=
  ({ text := header, first := 1, last := 1 } : Statement).toInstruction

namespace Statement

variable {s : Statement} {value : Text} {values : List Text}

theorem appendBody_concat (body : Text) (values : List Text) (value : Text) :
    appendBody body (values ++ [value]) = values ++ [value ++ '\n' :: body] := by
  induction values with
  | nil => rfl
  | cons v values ih =>
    obtain ⟨w, more, hcons⟩ := List.exists_cons_of_ne_nil (List.concat_ne_nil value values)
    rw [List.cons_append, List.cons_append, ← ih, hcons]
    rfl

theorem values_of_body (h : s.body ≠ []) :
    s.values = appendBody (unlines s.body) (Instruction.ofHeader s.text).values :=
  if_neg h

end Statement

namespace Reader

variable {options : ReadOptions} {text : Text} {before after : List Instruction} {i : Instruction}
  {escape : Char} {above header rest : List Text}

/-- The heredocs that a header opens take the lines below it in blocks, each up to the first
terminator. The source and the last value of the instruction hold these lines as they stand, and the
next instruction starts behind them. -/
theorem byLines_heredocs (h : (byLines options text).value = .ok (before ++ i :: after))
    (hescape : Escape.effective options.escape (lines text) = .ok escape)
    (hlines : lines text = above ++ (header ++ rest)) (hfirst : i.first = above.length + 1)
    (hheader : UpTo (Statement.endsHeader escape) header)
    (hopened : Heredoc.openedBy (Statement.joined escape header) ≠ []) :
    ∃ blocks below, rest = List.flatten blocks ++ below ∧
      i.last = above.length + (header.length + blocks.flatten.length) ∧
      List.Forall₂ (fun marker block => UpTo marker.closes block)
        (Heredoc.openedBy (Statement.joined escape header)) blocks ∧
      i.source = Statement.joined escape header ++ '\n' :: unlines blocks.flatten ∧
      (∀ values value, (Instruction.ofHeader (Statement.joined escape header)).values =
          values ++ [value] →
        i.values = values ++ [value ++ '\n' :: unlines blocks.flatten]) ∧
      ((Instruction.ofHeader (Statement.joined escape header)).values = [] →
        i.values = [unlines blocks.flatten]) ∧
      ∀ j ∈ after, i.last < j.first := by
  obtain ⟨_, ss, hescape', hss, -, -, his⟩ := byLines_eq_ok.mp h
  rw [hescape] at hescape'
  cases hescape'
  obtain ⟨front, rest', rfl, -, hrest'⟩ := List.map_eq_append_iff.mp his.symm
  obtain ⟨s, back, rfl, rfl, rfl⟩ := List.map_eq_cons_iff.mp hrest'
  have hordered := (Statement.ofLines_spans hss).1
  rw [hlines] at hss
  obtain ⟨htext, hfilled, hlast, below, hrest⟩ :=
    Statement.ofLines_header hss (List.mem_append_right _ List.mem_cons_self) hfirst hheader
  have hbody : s.body ≠ [] := hfilled.body_ne_nil hopened
  obtain ⟨blocks, hblocks, hflatten⟩ := hfilled.exists_blocks
  have hvalues := Statement.values_of_body hbody
  rw [htext, hflatten] at hvalues
  rw [hflatten] at hrest hlast
  refine ⟨blocks, below, hrest, hlast, hblocks, ?_, fun values value halone => ?_,
    fun halone => ?_, ?_⟩
  · rw [← htext, ← hflatten]
    exact if_neg hbody
  · exact hvalues.trans (by rw [halone, Statement.appendBody_concat])
  · exact hvalues.trans (by rw [halone]; rfl)
  · rw [List.forall_mem_map]
    exact (List.pairwise_cons.mp (List.pairwise_append.mp hordered).2.1).1

/-- A header on two lines around a comment. Its heredocs hold a line that looks continued, one that
looks like a comment, and an empty one. -/
def verbatimText : Text :=
  "FROM a\nCOPY <<-A \\\n# note\n  <<'B' /x \r\n\tkeep \\\r\n\t\tA\n# b\n\nB\nUSER c".toList

def verbatimHeader : List Text :=
  ["COPY <<-A \\".toList, "# note".toList, "  <<'B' /x ".toList]

def verbatimCopy : Instruction :=
  { name := "COPY".toList, flags := []
    values := ["<<-A".toList, "<<'B'".toList, "/x\n\tkeep \\\n\t\tA\n# b\n\nB".toList]
    first := 2, last := 9, source := "COPY <<-A <<'B' /x\n\tkeep \\\n\t\tA\n# b\n\nB".toList }

theorem byLines_heredocs_verbatimText :
    ∃ before after blocks below,
      (byLines {} verbatimText).value = .ok (before ++ verbatimCopy :: after) ∧
      (lines verbatimText).drop 4 = List.flatten blocks ++ below ∧
      verbatimCopy.last = 1 + (3 + blocks.flatten.length) ∧
      List.Forall₂ (fun marker block => UpTo marker.closes block)
        (Heredoc.openedBy "COPY <<-A <<'B' /x".toList) blocks ∧
      verbatimCopy.source = "COPY <<-A <<'B' /x".toList ++ '\n' :: unlines blocks.flatten := by
  have h : (byLines {} verbatimText).value =
      .ok (((byLines {} verbatimText).value.toOption.getD []).take 1 ++
        verbatimCopy :: ((byLines {} verbatimText).value.toOption.getD []).drop 2) := by
    decide +kernel
  have hlines : lines verbatimText =
      ["FROM a".toList] ++ (verbatimHeader ++ (lines verbatimText).drop 4) := by
    decide +kernel
  have hheader : UpTo (Statement.endsHeader '\\') verbatimHeader :=
    ⟨["COPY <<-A \\".toList, "# note".toList], "  <<'B' /x ".toList, rfl, by decide, by decide⟩
  have hjoined : Statement.joined '\\' verbatimHeader = "COPY <<-A <<'B' /x".toList := by
    decide +kernel
  obtain ⟨blocks, below, hrest, hlast, hblocks, hsource, -⟩ :=
    byLines_heredocs h (by decide +kernel) hlines rfl hheader (by decide +kernel)
  rw [hjoined] at hblocks hsource
  exact ⟨_, _, blocks, below, h, hrest, hlast, hblocks, hsource⟩

end Reader

end Dockerfile
