import Dockerfile.Proofs.Statement.Complete
import Dockerfile.Proofs.Statement.Coverage

/-!
# The lines that a statement is read from

A statement is read from a header, which ends with the first line that has something to read and
does not go on, and from the lines of its heredocs below it.

* `Statement.joined`: the text that lines form.
* `Statement.ReadFrom`, `Statement.LeftOpenOn`: where a statement stands, and one that the end of
  the text completes.
* `Statement.Phase.ReadFrom`, `Statement.Phase.ReadFrom.of_move`: the same for the open statement.
* `Statement.ofLines_readFrom`: each statement of a text stands somewhere.
* `Statement.ofLines_header`: the lines of its header determine a statement.
-/

namespace Dockerfile.Statement

open Text Heredoc

variable {escape : Char} {line : Text} {ls above header below rest : List Text}
  {ss : List Statement}

/-! ## Joined lines -/

/-- The text on a line, if it is no comment: without white space at its ends, and without the escape
character if the line goes on. -/
def lineText (escape : Char) (line : Text) : Text :=
  if isSkipped (trim line) then [] else (piece escape (trim line)).1

/-- The texts on the lines that have one. -/
def lineTexts (escape : Char) (ls : List Text) : List Text :=
  (ls.map (lineText escape)).filter (· ≠ [])

/-- The text that lines form, with single spaces between the texts on them. -/
def joined (escape : Char) (ls : List Text) : Text := joinWith [' '] (lineTexts escape ls)

/-- The line has something to read and does not go on, so it ends a header. -/
def endsHeader (escape : Char) (line : Text) : Bool :=
  !isSkipped (trim line) && (trim line).getLast? != some escape

theorem endsHeader_of_isSkipped (h : isSkipped (trim line)) : endsHeader escape line = false := by
  simp [endsHeader, h]

theorem endsHeader_of_getLast? (h : (trim line).getLast? = some escape) :
    endsHeader escape line = false := by
  simp [endsHeader, h]

theorem endsHeader_of_getLast?_ne (hskip : isSkipped (trim line) = false)
    (h : (trim line).getLast? ≠ some escape) : endsHeader escape line := by
  simp [endsHeader, hskip, h]

theorem reverse_lineTexts_concat (ls : List Text) (line : Text) :
    (lineTexts escape (ls ++ [line])).reverse =
      addPiece (lineText escape line) (lineTexts escape ls).reverse := by
  by_cases h : lineText escape line = [] <;> simp [lineTexts, addPiece, h]

theorem joinPieces_reverse_lineTexts (ls : List Text) :
    joinPieces (lineTexts escape ls).reverse = joined escape ls := by
  rw [joinPieces, List.reverse_reverse, joined]

theorem lineText_of_not_isSkipped (h : isSkipped (trim line) = false) :
    lineText escape line = (piece escape (trim line)).1 := by
  simp [lineText, h]

theorem lineText_of_continues {before : Text} (hskip : isSkipped (trim line) = false)
    (h : trim line = before ++ [escape]) : lineText escape line = trimEnd before := by
  rw [lineText_of_not_isSkipped hskip]
  simp [piece, dropEnd?, h]

theorem joined_concat (hskip : isSkipped (trim line) = false)
    (h : (trim line).getLast? ≠ some escape) :
    joined escape (ls ++ [line]) = joinPieces (trim line :: (lineTexts escape ls).reverse) := by
  have hline : lineText escape line = trim line := by
    rw [lineText_of_not_isSkipped hskip, piece_of_getLast?_ne h]
  rw [← joinPieces_reverse_lineTexts, reverse_lineTexts_concat, hline, addPiece,
    if_neg (Phase.trim_ne_nil_of_not_isSkipped hskip)]

/-! ## Where statements stand -/

/-- The statement is read from its header among the lines and from the lines of its heredocs. -/
def ReadFrom (escape : Char) (ls : List Text) (s : Statement) : Prop :=
  ∃ above header below, ls = above ++ (header ++ (s.body ++ below)) ∧
    UpTo (endsHeader escape) header ∧ s.text = joined escape header ∧
    s.first = above.length + 1 ∧ s.last = above.length + (header.length + s.body.length)

/-- The header of the statement goes on up to the end of the lines, and it has no heredocs. -/
def LeftOpenOn (escape : Char) (ls : List Text) (s : Statement) : Prop :=
  ∃ above header, ls = above ++ header ∧ (∀ line ∈ header, endsHeader escape line = false) ∧
    s.first = above.length + 1 ∧ s.body = []

theorem ReadFrom.concat {s : Statement} (h : s.ReadFrom escape ls) (line : Text) :
    s.ReadFrom escape (ls ++ [line]) := by
  obtain ⟨above, header, below, rfl, hs⟩ := h
  exact ⟨above, header, below ++ [line], by simp only [List.append_assoc], hs⟩

namespace Phase

/-- The open statement is read from its header, and from the lines of its heredocs so far. -/
def ReadFrom (escape : Char) (ls : List Text) : Phase → Prop
  | between => True
  | joining pieces first _ =>
    ∃ above header, ls = above ++ header ∧ (∀ line ∈ header, endsHeader escape line = false) ∧
      pieces = (lineTexts escape header).reverse ∧ first = above.length + 1
  | inHeredoc text first _ _ body =>
    ∃ above header, ls = above ++ (header ++ body.reverse) ∧ UpTo (endsHeader escape) header ∧
      text = joined escape header ∧ first = above.length + 1

variable {phase phase' : Phase} {pieces : List Text} {first : Nat}

/-- The lines of the header so far; there are none between statements. -/
theorem Open.exists_header (ho : Open (ls.length + 1) phase pieces first)
    (h : phase.ReadFrom escape ls) :
    ∃ above header, ls = above ++ header ∧ (∀ line ∈ header, endsHeader escape line = false) ∧
      pieces = (lineTexts escape header).reverse ∧ first = above.length + 1 := by
  cases ho with
  | between => exact ⟨ls, [], by simp, by simp, rfl, rfl⟩
  | joining pieces first last => exact h

/-- The line ends the header that the open statement is read from. -/
theorem Open.exists_upTo (ho : Open (ls.length + 1) phase pieces first)
    (h : phase.ReadFrom escape ls) (hskip : isSkipped (trim line) = false)
    (hlast : (trim line).getLast? ≠ some escape) :
    ∃ above header, ls ++ [line] = above ++ header ∧ UpTo (endsHeader escape) header ∧
      joinPieces (trim line :: pieces) = joined escape header ∧ first = above.length + 1 := by
  obtain ⟨above, header, rfl, hheader, rfl, rfl⟩ := ho.exists_header h
  exact ⟨above, header ++ [line], List.append_assoc .., ⟨header, line, rfl, hheader,
    endsHeader_of_getLast?_ne hskip hlast⟩, (joined_concat hskip hlast).symm, rfl⟩

theorem ReadFrom.of_move {new : List Statement} (h : phase.ReadFrom escape ls)
    (hmove : Move escape (ls.length + 1) line phase phase' new) :
    phase'.ReadFrom escape (ls ++ [line]) ∧ ∀ s ∈ new, s.ReadFrom escape (ls ++ [line]) := by
  cases hmove with
  | skip => exact ⟨trivial, by simp⟩
  | inner pieces first last hskip =>
    obtain ⟨above, header, rfl, hheader, rfl, rfl⟩ := h
    refine ⟨⟨above, header ++ [line], List.append_assoc .., ?_, ?_, rfl⟩, by simp⟩
    · exact List.forall_mem_append.mpr
        ⟨hheader, List.forall_mem_singleton.mpr (endsHeader_of_isSkipped hskip)⟩
    · rw [reverse_lineTexts_concat, lineText, if_pos hskip]
      rfl
  | goesOn before ho hskip hline =>
    obtain ⟨above, header, rfl, hheader, rfl, rfl⟩ := ho.exists_header h
    refine ⟨⟨above, header ++ [line], List.append_assoc .., ?_, ?_, rfl⟩, by simp⟩
    · exact List.forall_mem_append.mpr ⟨hheader, List.forall_mem_singleton.mpr
        (endsHeader_of_getLast? (by rw [hline, List.getLast?_concat]))⟩
    · rw [reverse_lineTexts_concat, lineText_of_continues hskip hline]
  | plain ho hskip hlast =>
    obtain ⟨above, header, hls, hheader, htext, rfl⟩ := ho.exists_upTo h hskip hlast
    have hlength := congrArg List.length hls
    simp only [List.length_append, List.length_singleton] at hlength
    exact ⟨trivial, List.forall_mem_singleton.mpr
      ⟨above, header, [], by simpa using hls, hheader, htext, rfl, hlength⟩⟩
  | opens marker later ho hskip hlast =>
    obtain ⟨above, header, hls, hheader, htext, rfl⟩ := ho.exists_upTo h hskip hlast
    exact ⟨⟨above, header, by simpa using hls, hheader, htext, rfl⟩, by simp⟩
  | body | next =>
    obtain ⟨above, header, rfl, hheader, htext, rfl⟩ := h
    exact ⟨⟨above, header, by simp, hheader, htext, rfl⟩, by simp⟩
  | terminator text first marker body =>
    obtain ⟨above, header, rfl, hheader, htext, rfl⟩ := h
    exact ⟨trivial, List.forall_mem_singleton.mpr ⟨above, header, [], by simp, hheader, htext, rfl,
      by simp [Nat.add_assoc]⟩⟩

theorem readFrom_run (escape : Char) (ls : List Text) :
    (between.run escape 1 ls).1.ReadFrom escape ls ∧
      ∀ s ∈ (between.run escape 1 ls).2, s.ReadFrom escape ls :=
  run_prefix_invariant escape
    (fun ls phase ss => phase.ReadFrom escape ls ∧ ∀ s ∈ ss, s.ReadFrom escape ls)
    (fun ls line phase phase' ss new h hmove => by
      obtain ⟨hphase, hnew⟩ := h.1.of_move hmove
      exact ⟨hphase, List.forall_mem_append.mpr ⟨fun s hs => (h.2 s hs).concat line, hnew⟩⟩)
    ⟨trivial, by simp⟩ ls

end Phase

/-! ## The statements of a text -/

/-- A statement of a text is read from its lines and has its heredocs, unless its header goes on up
to the end of the text. -/
theorem ofLines_readFrom (h : ofLines escape ls = .ok ss) {s : Statement} (hs : s ∈ ss) :
    s.ReadFrom escape ls ∧ s.Complete escape ∨ s.LeftOpenOn escape ls := by
  obtain ⟨last, hfinish, rfl⟩ := ofLines_eq_ok.mp h
  obtain ⟨hphase, hread⟩ := Phase.readFrom_run escape ls
  rcases List.mem_append.mp hs with hs | hs
  · exact .inl ⟨hread s hs, complete_of_mem_run hs⟩
  · rcases Phase.finish_eq_ok hfinish with ⟨-, rfl⟩ | ⟨pieces, first, n, hjoining, rfl⟩
    · cases hs
    · rw [hjoining] at hphase
      obtain ⟨above, header, hls, hheader, -, rfl⟩ := hphase
      unfold keep at hs
      split at hs
      · cases hs
      · rw [List.mem_singleton.mp hs]
        exact .inr ⟨above, header, hls, hheader, rfl, rfl⟩

/-- The lines of its header give the text of a statement, and the lines of its heredocs stand below
them. -/
theorem ofLines_header (h : ofLines escape (above ++ (header ++ rest)) = .ok ss) {s : Statement}
    (hs : s ∈ ss) (hfirst : s.first = above.length + 1) (hheader : UpTo (endsHeader escape) header) :
    s.text = joined escape header ∧ FilledBy (openedBy (joined escape header)) s.body ∧
      s.last = above.length + (header.length + s.body.length) ∧ ∃ below, rest = s.body ++ below := by
  rcases ofLines_readFrom h hs with ⟨hread, hcomplete⟩ | hopen
  · obtain ⟨above', header', below, hls, hheader', htext, hfirst', hlast⟩ := hread
    have hlength : above.length = above'.length := by omega
    obtain ⟨rfl, hrest⟩ := List.append_inj hls hlength
    obtain rfl := hheader.unique hheader' hrest
    have hfilled := hcomplete.filled
    rw [htext] at hfilled
    exact ⟨htext, hfilled, hlast, below, List.append_cancel_left hrest⟩
  · -- A header that goes on up to the end of the text has no last line.
    obtain ⟨above', header', hls, hheader', hfirst', -⟩ := hopen
    have hlength : above.length = above'.length := by omega
    obtain ⟨rfl, rfl⟩ := List.append_inj hls hlength
    obtain ⟨front, l, rfl, -, hl⟩ := hheader
    rw [hheader' l (by simp)] at hl
    cases hl

end Dockerfile.Statement
