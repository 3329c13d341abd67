import Dockerfile.Proofs.Heredoc.Body
import Dockerfile.Proofs.Statement.Move

/-!
# Complete statements

A statement that does not end with the text ends in a line that the next one does not continue, and
then in the lines of its heredocs. Such a statement can be read again from its text and its body.

* `Statement.Complete`, `Statement.complete_of_mem_run`: the statements that the lines complete.
* `Statement.Phase.run_source`: the text and the body of a complete statement are read as one
  statement.
* `Statement.Phase.exists_filled`: a heredoc that does not stay open takes the lines of its body.
-/

namespace Dockerfile.Statement

open Text Heredoc

variable {escape : Char} {n : Nat} {line : Text} {pieces : List Text}

/-- The line that closes the statement does not go on, and its heredocs are filled. -/
structure Complete (escape : Char) (s : Statement) : Prop where
  trimmed : Trimmed s.text
  ne_nil : s.text ≠ []
  getLast?_ne : s.text.getLast? ≠ some escape
  filled : FilledBy (openedBy s.text) s.body

/-- The source of a statement consists of its text and of the lines of its heredocs. -/
theorem source_eq_unlines (s : Statement) : s.source = unlines (s.text :: s.body) := by
  unfold source
  split
  · next hbody =>
    rw [hbody]
    rfl
  · next hbody => exact (unlines_cons hbody).symm

/-! ## Joined pieces -/

theorem trimmed_joinPieces (h : ∀ p ∈ pieces, p ≠ [] ∧ Trimmed p) :
    Trimmed (joinPieces pieces) := by
  induction pieces with
  | nil => exact ⟨noLead_nil, noTrail_nil⟩
  | cons p pieces ih =>
    obtain ⟨⟨hne, hp⟩, hpieces⟩ := List.forall_mem_cons.mp h
    by_cases hnil : pieces = []
    · subst hnil
      exact hp
    · have hjoined : joinPieces pieces ≠ [] := by
        obtain ⟨q, qs, rfl⟩ := List.exists_cons_of_ne_nil hnil
        exact joinPieces_ne_nil (hpieces q List.mem_cons_self).1
      rw [joinPieces_cons hnil]
      exact ⟨(ih hpieces).1.append hjoined, by
        rw [← List.singleton_append, ← List.append_assoc]
        exact hp.2.append hne⟩

/-- The joined pieces end as the last of them does. -/
theorem getLast?_joinPieces (h : line ≠ []) :
    (joinPieces (line :: pieces)).getLast? = line.getLast? := by
  by_cases hnil : pieces = []
  · subst hnil
    rfl
  · rw [joinPieces_cons hnil, ← List.singleton_append, ← List.append_assoc, List.getLast?_append,
      List.getLast?_eq_some_getLast h]
    rfl

namespace Phase

/-! ## Complete statements -/

/-- The pieces of the open statement are trimmed, and its heredocs are filled up to the current
one. -/
def Sound (escape : Char) : Phase → Prop
  | between => True
  | joining pieces _ _ => ∀ p ∈ pieces, p ≠ [] ∧ Trimmed p
  | inHeredoc text _ marker later body =>
    (Trimmed text ∧ text ≠ [] ∧ text.getLast? ≠ some escape) ∧
      ∀ ls, FilledBy (marker :: later) ls → FilledBy (openedBy text) (body.reverse ++ ls)

theorem Open.sound {phase : Phase} {first : Nat} (ho : Open n phase pieces first)
    (h : phase.Sound escape) : ∀ p ∈ pieces, p ≠ [] ∧ Trimmed p := by
  cases ho with
  | between => simp
  | joining pieces first last => exact h

/-- The text that the line closes. -/
theorem Open.closed {phase : Phase} {first : Nat} (ho : Open n phase pieces first)
    (h : phase.Sound escape) (hskip : isSkipped (trim line) = false)
    (hlast : (trim line).getLast? ≠ some escape) :
    Trimmed (joinPieces (trim line :: pieces)) ∧ joinPieces (trim line :: pieces) ≠ [] ∧
      (joinPieces (trim line :: pieces)).getLast? ≠ some escape := by
  have hne := trim_ne_nil_of_not_isSkipped hskip
  exact ⟨trimmed_joinPieces (List.forall_mem_cons.mpr ⟨⟨hne, trimmed_trim line⟩, ho.sound h⟩),
    joinPieces_ne_nil hne, by rwa [getLast?_joinPieces hne]⟩

theorem sound_of_move {phase phase' : Phase} {new : List Statement} (h : phase.Sound escape)
    (hmove : Move escape n line phase phase' new) :
    phase'.Sound escape ∧ ∀ s ∈ new, s.Complete escape := by
  cases hmove with
  | skip => exact ⟨trivial, by simp⟩
  | inner => exact ⟨h, by simp⟩
  | goesOn before ho _ hbefore =>
    have hlead : NoLead before := by
      have htrim := (trimmed_trim line).1
      rw [hbefore] at htrim
      cases before with
      | nil => exact noLead_nil
      | cons c before => exact noLead_cons.mpr (noLead_cons.mp htrim)
    refine ⟨?_, by simp⟩
    unfold addPiece
    split
    · exact ho.sound h
    · rename_i hne
      exact List.forall_mem_cons.mpr ⟨⟨hne, hlead.trimEnd, noTrail_trimEnd before⟩, ho.sound h⟩
  | plain ho hskip hlast hopened =>
    obtain ⟨htrim, hne, hlast⟩ := ho.closed h hskip hlast
    exact ⟨trivial, List.forall_mem_singleton.mpr ⟨htrim, hne, hlast, by rw [hopened]; exact .done⟩⟩
  | opens marker later ho hskip hlast hopened =>
    refine ⟨⟨ho.closed h hskip hlast, fun ls hls => ?_⟩, by simp⟩
    rwa [hopened]
  | body text first marker later body hclose =>
    refine ⟨⟨h.1, fun ls hls => ?_⟩, by simp⟩
    simpa using h.2 _ (.line hclose hls)
  | next text first marker next later body hclose =>
    refine ⟨⟨h.1, fun ls hls => ?_⟩, by simp⟩
    simpa using h.2 _ (.terminator hclose hls)
  | terminator text first marker body hclose =>
    obtain ⟨htrim, hne, hlast⟩ := h.1
    refine ⟨trivial, List.forall_mem_singleton.mpr ⟨htrim, hne, hlast, ?_⟩⟩
    simpa using h.2 _ (.terminator hclose .done)

theorem sound_run {phase : Phase} (h : phase.Sound escape) (ls : List Text) :
    (phase.run escape n ls).1.Sound escape ∧
      ∀ s ∈ (phase.run escape n ls).2, s.Complete escape := by
  have hstart : phase.Sound escape ∧ ∀ s ∈ ([] : List Statement), s.Complete escape := ⟨h, by simp⟩
  simpa using run_invariant
    (fun _ phase ss => phase.Sound escape ∧ ∀ s ∈ ss, s.Complete escape)
    (fun n line phase phase' ss new _ h hmove => by
      obtain ⟨hphase, hnew⟩ := sound_of_move h.1 hmove
      exact ⟨hphase, List.forall_mem_append.mpr ⟨h.2, hnew⟩⟩)
    (n := n) hstart

end Phase

/-- The lines of a text complete complete statements only. -/
theorem complete_of_mem_run {ls : List Text} {s : Statement}
    (hs : s ∈ (Phase.between.run escape n ls).2) : s.Complete escape := by
  have hstart : Phase.between.Sound escape := trivial
  exact (Phase.sound_run hstart ls).2 s hs

namespace Phase

/-! ## Reading again -/

theorem run_cons (phase : Phase) (line : Text) (ls : List Text) :
    phase.run escape n (line :: ls) =
      (((phase.step escape n line).1.run escape (n + 1) ls).1,
        (phase.step escape n line).2 ++ ((phase.step escape n line).1.run escape (n + 1) ls).2) :=
  rfl

theorem run_skipped {ls : List Text} (h : ∀ line ∈ ls, isSkipped (trim line)) :
    between.run escape n ls = (between, []) := by
  induction ls generalizing n with
  | nil => rfl
  | cons line ls ih =>
    obtain ⟨hline, hls⟩ := List.forall_mem_cons.mp h
    have hstep : between.step escape n line = (between, []) := by simp [step, hline]
    rw [run_cons, hstep, ih hls, List.append_nil]

theorem run_blank_append (k : Nat) (ls : List Text) :
    between.run escape n (List.replicate k [] ++ ls) = between.run escape (n + k) ls := by
  have hblank : between.run escape n (List.replicate k []) = (between, []) :=
    run_skipped fun line hline => by
      rw [List.eq_of_mem_replicate hline]
      rfl
  rw [run_append, hblank, List.length_replicate]
  rfl

/-- A heredoc takes the lines of its body, and the statement is complete. -/
theorem run_filled {text : Text} {first : Nat} {marker : Heredoc} {later : List Heredoc}
    {body ls : List Text} (h : FilledBy (marker :: later) ls) :
    (inHeredoc text first marker later body).run escape n ls =
      (between, [{ text, body := body.reverse ++ ls, first, last := n + ls.length - 1 }]) := by
  induction ls generalizing n marker later body with
  | nil => cases h
  | cons line ls ih =>
    have hn : n + 1 + ls.length - 1 = n + (line :: ls).length - 1 := by
      rw [List.length_cons]
      omega
    cases h with
    | line hclose hls => simp [run_cons, step, hclose, ih hls, hn]
    | terminator hclose hls =>
      cases later with
      | nil =>
        cases filledBy_nil.mp hls
        simp [step, hclose, run]
      | cons next later => simp [run_cons, step, hclose, ih hls, hn]

/-- A trimmed line that does not go on is the text of a statement. -/
theorem step_between (ht : Trimmed line) (hskip : isSkipped line = false)
    (hlast : line.getLast? ≠ some escape) : between.step escape n line = close line n n := by
  have hne : line ≠ [] := by
    rintro rfl
    cases hskip
  have hadd : addPiece line [] = [line] := if_neg hne
  simp [step, join, ht.trim_eq, hskip, piece_of_getLast?_ne hlast, hadd, joinPieces, joinWith]

/-- The text of a complete statement is read again, with its body below it. -/
theorem run_source {s : Statement} (h : s.Complete escape) (hskip : isSkipped s.text = false) :
    between.run escape n (s.text :: s.body) =
      (between, [{ s with first := n, last := n + s.body.length }]) := by
  have hfilled := h.filled
  rw [run_cons, step_between h.trimmed hskip h.getLast?_ne, close]
  cases hopened : openedBy s.text with
  | nil =>
    rw [hopened, filledBy_nil] at hfilled
    simp [run, keep, h.ne_nil, hfilled]
  | cons marker later =>
    rw [hopened] at hfilled
    have hn : n + 1 + s.body.length - 1 = n + s.body.length := by omega
    simp [run_filled hfilled, hn]

/-- A heredoc that does not stay open takes the lines of its body. -/
theorem exists_filled {text : Text} {first : Nat} {marker : Heredoc} {later : List Heredoc}
    {body ls : List Text} {ss : List Statement}
    (h : ((inHeredoc text first marker later body).run escape n ls).1.finish = .ok ss) :
    ∃ filled rest, ls = filled ++ rest ∧ FilledBy (marker :: later) filled := by
  induction ls generalizing n marker later body with
  | nil => cases h
  | cons line ls ih =>
    rw [run_cons] at h
    cases hclose : marker.closes line with
    | false =>
      have hstep : (inHeredoc text first marker later body).step escape n line =
          (inHeredoc text first marker later (line :: body), []) := by
        simp [step, hclose]
      rw [hstep] at h
      obtain ⟨filled, rest, rfl, hfilled⟩ := ih h
      exact ⟨line :: filled, rest, rfl, .line hclose hfilled⟩
    | true =>
      cases later with
      | nil => exact ⟨[line], ls, rfl, .terminator hclose .done⟩
      | cons next later =>
        have hstep : (inHeredoc text first marker (next :: later) body).step escape n line =
            (inHeredoc text first next later (line :: body), []) := by
          simp [step, hclose]
        rw [hstep] at h
        obtain ⟨filled, rest, rfl, hfilled⟩ := ih h
        exact ⟨line :: filled, rest, rfl, .terminator hclose hfilled⟩

end Phase

end Dockerfile.Statement
