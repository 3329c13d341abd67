import Dockerfile.Proofs.Statement.Span
import Mathlib.Data.List.Induction

/-!
# Which lines the statements cover

The lines that no statement stands on are blank lines and comments. The end of the text may also cut
off a statement that consists of escape characters only; it is dropped with its lines.

* `Statement.Idle`: the blank lines and the comments.
* `Statement.Phase.run_prefix_invariant`: what every move keeps, of all lines read so far, holds at
  the end.
* `Statement.Phase.Covers`, `Statement.Phase.Covers.of_move`: each line read so far is idle, or a
  statement covers it.
* `Statement.ofLines_covers`: the same for the statements of a text.
-/

namespace Dockerfile.Statement

open Text

variable {escape : Char} {line : Text} {ls : List Text} {ss : List Statement}

/-! ## Idle lines -/

/-- A blank line or a comment. -/
def Idle (line : Text) : Prop := Blank line ∨ '#' ∈ (trim line).head?

theorem isSkipped_trim_iff : isSkipped (trim line) ↔ Idle line := by
  constructor
  · intro h
    cases ht : trim line with
    | nil =>
      refine .inl (blank_of_trimStart_eq_nil ((noLead_trimStart line).eq_nil_of_blank ?_))
      obtain ⟨trail, htrail, hline⟩ := exists_trimEnd (trimStart line)
      rw [trim] at ht
      rwa [hline, ht]
    | cons c rest =>
      rw [ht] at h
      exact .inr (by simpa [isSkipped, ht] using h)
  · rintro (hblank | hcomment)
    · rw [trim, trimStart_of_blank hblank]
      rfl
    · cases ht : trim line with
      | nil => rfl
      | cons c rest => simpa [isSkipped, ht] using hcomment

theorem Idle.congr {l : Text} (h : Idle l) (hl : trim line = trim l) : Idle line := by
  rw [← isSkipped_trim_iff, hl, isSkipped_trim_iff]
  exact h

/-- The line with the number `n`, counted from one, has something to read. -/
def Busy (ls : List Text) (n : Nat) : Prop := ∃ k line, n = k + 1 ∧ ls[k]? = some line ∧ ¬ Idle line

/-- A line among those read so far is the last one or an earlier one. -/
theorem getElem?_concat_cases {k : Nat} {l : Text} (h : (ls ++ [line])[k]? = some l) :
    (k < ls.length ∧ ls[k]? = some l) ∨ (k = ls.length ∧ line = l) := by
  rcases Nat.lt_or_ge k ls.length with hk | hk
  · rw [List.getElem?_append_left hk] at h
    exact .inl ⟨hk, h⟩
  · rw [List.getElem?_append_right hk] at h
    obtain ⟨hzero, hline⟩ := List.getElem?_eq_some_iff.mp h
    have : k - ls.length < 1 := hzero
    exact .inr ⟨by omega, by simpa using hline⟩

theorem Busy.le_length {n : Nat} (h : Busy ls n) : n ≤ ls.length := by
  obtain ⟨k, l, rfl, hl, -⟩ := h
  exact (List.getElem?_eq_some_iff.mp hl).1

theorem Busy.append {n : Nat} (h : Busy ls n) (line : Text) : Busy (ls ++ [line]) n := by
  obtain ⟨k, l, rfl, hl, hbusy⟩ := h
  have hk : k < ls.length := (List.getElem?_eq_some_iff.mp hl).1
  exact ⟨k, l, rfl, by rw [List.getElem?_append_left hk, hl], hbusy⟩

theorem busy_concat (h : isSkipped (trim line) = false) : Busy (ls ++ [line]) (ls.length + 1) :=
  ⟨ls.length, line, rfl, List.getElem?_concat_length, fun hidle => by
    rw [isSkipped_trim_iff.mpr hidle] at h
    cases h⟩

/-- The statement stands on the line with the number `n`, among others. -/
def On (s : Statement) (n : Nat) : Prop := s.first ≤ n ∧ n ≤ s.last

namespace Phase

/-! ## Runs over all lines so far -/

/-- What every move keeps, of the lines read so far, the phase and the statements, holds at the
end of the lines. -/
theorem run_prefix_invariant (escape : Char) (I : List Text → Phase → List Statement → Prop)
    (hmove : ∀ ls line phase phase' ss new, I ls phase ss →
      Move escape (ls.length + 1) line phase phase' new → I (ls ++ [line]) phase' (ss ++ new))
    (h : I [] between []) (ls : List Text) :
    I ls (between.run escape 1 ls).1 (between.run escape 1 ls).2 := by
  induction ls using List.reverseRecOn with
  | nil => exact h
  | append_singleton ls line ih =>
    have hstep := move_step escape (ls.length + 1) line (between.run escape 1 ls).1
    simpa [run_append, run, Nat.add_comm] using hmove ls line _ _ _ _ ih hstep

/-! ## Coverage -/

/-- The lines of an open statement: it goes up to the last line read, and as long as it has no text,
its lines are idle or consist of the escape character. -/
def Tail (escape : Char) (ls : List Text) : Phase → Prop
  | joining pieces first last =>
    last = ls.length ∧ (∀ p ∈ pieces, p ≠ []) ∧
      (pieces = [] → ∀ k line, ls[k]? = some line → first ≤ k + 1 →
        Idle line ∨ trim line = [escape])
  | _ => True

/-- Of the lines read so far, those in front of the open statement are idle, or a statement stands
on them. -/
structure Covers (escape : Char) (ls : List Text) (phase : Phase) (ss : List Statement) : Prop where
  busy : ∀ s ∈ ss, Busy ls s.first
  start : phase = between ∨ Busy ls (phase.start (ls.length + 1))
  idle : ∀ k line, ls[k]? = some line → k + 1 < phase.start (ls.length + 1) →
    (∀ s ∈ ss, ¬ s.On (k + 1)) → Idle line
  tail : phase.Tail escape ls

theorem Covers.start_le {phase : Phase} (h : Covers escape ls phase ss) :
    phase.start (ls.length + 1) ≤ ls.length + 1 := by
  rcases h.start with rfl | hbusy
  · exact Nat.le_refl _
  · exact Nat.le_succ_of_le hbusy.le_length

/-- A move after which a statement is open. -/
theorem Covers.move {phase phase' : Phase} (h : Covers escape ls phase ss)
    (hstart : ∀ n, phase'.start n = phase.start (ls.length + 1))
    (hbusy : Busy (ls ++ [line]) (phase.start (ls.length + 1)))
    (htail : phase'.Tail escape (ls ++ [line])) :
    Covers escape (ls ++ [line]) phase' (ss ++ []) := by
  rw [List.append_nil]
  refine ⟨fun s hs => (h.busy s hs).append line, .inr ?_, fun k l hl hk => ?_, htail⟩
  · rwa [hstart]
  · rw [hstart] at hk
    rcases getElem?_concat_cases hl with ⟨-, hl⟩ | ⟨rfl, -⟩
    · exact h.idle k l hl hk
    · exact absurd hk (Nat.not_lt.mpr h.start_le)

/-- A move that completes the open statement. -/
theorem Covers.complete {phase : Phase} {s : Statement} (h : Covers escape ls phase ss)
    (hfirst : s.first = phase.start (ls.length + 1)) (hlast : s.last = ls.length + 1)
    (hbusy : Busy (ls ++ [line]) s.first) :
    Covers escape (ls ++ [line]) between (ss ++ [s]) := by
  refine ⟨?_, .inl rfl, fun k l hl _ hon => ?_, trivial⟩
  · rw [List.forall_mem_append, List.forall_mem_singleton]
    exact ⟨fun t ht => (h.busy t ht).append line, hbusy⟩
  · rw [List.forall_mem_append, List.forall_mem_singleton] at hon
    have hle := h.start_le
    have hoff : ¬ (s.first ≤ k + 1 ∧ k + 1 ≤ s.last) := hon.2
    -- The statement stands on all lines from its first one on.
    rcases getElem?_concat_cases hl with ⟨hk, hl⟩ | ⟨rfl, -⟩
    · exact h.idle k l hl (by omega) hon.1
    · omega

/-! ## Moves -/

/-- The line that a statement starts or goes on with leaves it on a first line with something to
read. -/
theorem Open.busy {phase : Phase} {pieces : List Text} {first : Nat}
    (ho : Open (ls.length + 1) phase pieces first) (h : Covers escape ls phase ss)
    (hskip : isSkipped (trim line) = false) :
    phase.start (ls.length + 1) = first ∧ Busy (ls ++ [line]) first := by
  cases ho with
  | between => exact ⟨rfl, busy_concat hskip⟩
  | joining pieces first last => exact ⟨rfl, (h.start.resolve_left (by simp)).append line⟩

theorem addPiece_eq_nil {p : Text} {pieces : List Text} (h : addPiece p pieces = []) :
    p = [] ∧ pieces = [] := by
  unfold addPiece at h
  split at h
  · exact ⟨‹_›, h⟩
  · cases h

/-- A continued line without a piece is the escape character. -/
theorem trim_eq_escape {before : Text} (hline : trim line = before ++ [escape])
    (hbefore : trimEnd before = []) : trim line = [escape] := by
  obtain ⟨trail, htrail, hb⟩ := exists_trimEnd before
  rw [hbefore, List.nil_append] at hb
  have hlead : NoLead (before ++ [escape]) := hline ▸ (trimmed_trim line).1
  have hnil : before = [] := by
    refine NoLead.eq_nil_of_blank ?_ (hb ▸ htrail)
    cases before with
    | nil => exact noLead_nil
    | cons c before => exact noLead_cons.mpr (noLead_cons.mp hlead)
  rw [hline, hnil, List.nil_append]

theorem Open.tail {phase : Phase} {pieces : List Text} {first : Nat} {before : Text}
    (ho : Open (ls.length + 1) phase pieces first) (h : Covers escape ls phase ss)
    (hline : trim line = before ++ [escape]) :
    (Phase.joining (addPiece (trimEnd before) pieces) first (ls.length + 1)).Tail escape
      (ls ++ [line]) := by
  refine ⟨by simp, ?_, fun hnil k l hl hk => ?_⟩
  · have hpieces : ∀ p ∈ pieces, p ≠ [] := by
      cases ho with
      | between => simp
      | joining pieces first last => exact h.tail.2.1
    unfold addPiece
    split
    · exact hpieces
    · exact List.forall_mem_cons.mpr ⟨‹_›, hpieces⟩
  · obtain ⟨hbefore, rfl⟩ := addPiece_eq_nil hnil
    rcases getElem?_concat_cases hl with ⟨hlt, hl⟩ | ⟨-, rfl⟩
    · cases ho with
      | between => omega
      | joining pieces first last => exact h.tail.2.2 rfl k l hl hk
    · exact .inr (trim_eq_escape hline hbefore)

theorem Covers.of_move {phase phase' : Phase} {new : List Statement}
    (h : Covers escape ls phase ss) (hmove : Move escape (ls.length + 1) line phase phase' new) :
    Covers escape (ls ++ [line]) phase' (ss ++ new) := by
  have hopen (hne : phase ≠ between) : Busy (ls ++ [line]) (phase.start (ls.length + 1)) :=
    (h.start.resolve_left hne).append line
  cases hmove with
  | skip hskip =>
    rw [List.append_nil]
    refine ⟨fun s hs => (h.busy s hs).append line, .inl rfl, fun k l hl _ hon => ?_, trivial⟩
    rcases getElem?_concat_cases hl with ⟨hk, hl⟩ | ⟨-, rfl⟩
    · exact h.idle k l hl (Nat.succ_lt_succ hk) hon
    · exact isSkipped_trim_iff.mp hskip
  | inner pieces first last hskip =>
    obtain ⟨-, hpieces, hbare⟩ := h.tail
    refine h.move (fun _ => rfl) (hopen (by simp)) ⟨by simp, hpieces, fun hnil k l hl hk => ?_⟩
    rcases getElem?_concat_cases hl with ⟨-, hl⟩ | ⟨-, rfl⟩
    · exact hbare hnil k l hl hk
    · exact .inl (isSkipped_trim_iff.mp hskip)
  | goesOn before ho hskip hline =>
    obtain ⟨hstart, hbusy⟩ := ho.busy h hskip
    exact h.move (fun _ => hstart.symm) (hstart ▸ hbusy) (ho.tail h hline)
  | plain ho hskip =>
    obtain ⟨hstart, hbusy⟩ := ho.busy h hskip
    exact h.complete hstart.symm rfl hbusy
  | opens marker later ho hskip =>
    obtain ⟨hstart, hbusy⟩ := ho.busy h hskip
    exact h.move (fun _ => hstart.symm) (hstart ▸ hbusy) trivial
  | body | next => exact h.move (fun _ => rfl) (hopen (by simp)) trivial
  | terminator => exact h.complete rfl rfl (hopen (by simp))

theorem covers_nil : between.Covers escape [] [] :=
  ⟨by simp, .inl rfl, by simp, trivial⟩

theorem covers_run (escape : Char) (ls : List Text) :
    Covers escape ls (between.run escape 1 ls).1 (between.run escape 1 ls).2 :=
  run_prefix_invariant escape (Covers escape)
    (fun _ _ _ _ _ _ h hmove => h.of_move hmove) covers_nil ls

end Phase

/-! ## Texts -/

/-- The statements of a text start on lines with something to read. The lines that they do not stand
on are idle, or consist of the escape character and follow the last statement. -/
theorem ofLines_covers (h : ofLines escape ls = .ok ss) :
    (∀ s ∈ ss, Busy ls s.first) ∧
      ∀ k line, ls[k]? = some line → (∀ s ∈ ss, ¬ s.On (k + 1)) →
        Idle line ∨ trim line = [escape] ∧ ∀ s ∈ ss, s.last < k + 1 := by
  obtain ⟨last, hfinish, rfl⟩ := ofLines_eq_ok.mp h
  have hspans := Phase.spans_run escape ls
  have hcovers := Phase.covers_run escape ls
  generalize Phase.between.run escape 1 ls = ended at hspans hcovers hfinish
  rcases Phase.finish_eq_ok hfinish with ⟨hphase, rfl⟩ | ⟨pieces, first, n, hphase, rfl⟩
  · rw [List.append_nil]
    refine ⟨hcovers.busy, fun k line hl hon => .inl (hcovers.idle k line hl ?_ hon)⟩
    rw [hphase]
    exact Nat.succ_lt_succ (List.getElem?_eq_some_iff.mp hl).1
  · obtain ⟨rfl, hpieces, hbare⟩ : (Phase.joining pieces first n).Tail escape ls :=
      hphase ▸ hcovers.tail
    have hstart : ended.1.start (ls.length + 1) = first := by rw [hphase]; rfl
    have hbusy : Busy ls first := hstart ▸ hcovers.start.resolve_left (by simp [hphase])
    have hidle := hcovers.idle
    have hlt := hspans.last_lt
    rw [hstart] at hidle hlt
    unfold keep
    split
    · -- The open statement has no text, so its lines are not covered.
      rename_i htext
      have hnil : pieces = [] := by
        cases pieces with
        | nil => rfl
        | cons p pieces => exact absurd htext (joinPieces_ne_nil (hpieces p List.mem_cons_self))
      rw [List.append_nil]
      refine ⟨hcovers.busy, fun k line hl hon => ?_⟩
      rcases Nat.lt_or_ge (k + 1) first with hk | hk
      · exact .inl (hidle k line hl hk hon)
      · exact (hbare hnil k line hl hk).imp_right fun hescape =>
          ⟨hescape, fun s hs => Nat.lt_of_lt_of_le (hlt s hs) hk⟩
    · rw [List.forall_mem_append, List.forall_mem_singleton]
      refine ⟨⟨hcovers.busy, hbusy⟩, fun k line hl hon => .inl ?_⟩
      rw [List.forall_mem_append, List.forall_mem_singleton] at hon
      refine hidle k line hl (Nat.lt_of_not_le fun hk => hon.2 ⟨hk, ?_⟩) hon.1
      exact (List.getElem?_eq_some_iff.mp hl).1

end Dockerfile.Statement
