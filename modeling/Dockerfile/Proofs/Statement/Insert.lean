import Dockerfile.Proofs.Statement.Complete
import Dockerfile.Proofs.Statement.Coverage
import Dockerfile.Proofs.Statement.Shift
import Dockerfile.Proofs.Text.Insert

/-!
# Statements around one more line

A line that no heredoc takes is read for its trimmed text. If it is blank or a comment, it only
moves the lines behind it down.

* `Statement.HasHeredocAt`, `Statement.exists_hasHeredocAt`: the lines that the heredocs of a
  statement take, and that the reader waits for a terminator only in front of one.
* `Statement.exists_ofLines_of_readsLike`: the statements of lines that are read like other ones.
* `Statement.exists_ofLines_insert`: what the statements of the lines with one more idle line have in
  common with those without it.
* `Statement.ofLines_dropReturn`: a carriage return at the end of the text has no effect.
-/

namespace Dockerfile.Statement

open Text Heredoc

variable {escape : Char} {l line last : Text} {above below : List Text} {ss : List Statement}

/-- The number of a line after one more line above the line with the index `k`. -/
def lowered (k n : Nat) : Nat := if k < n then n + 1 else n

theorem lowered_of_lt {k n : Nat} (h : k < n) : lowered k n = n + 1 := if_pos h

theorem lowered_of_le {k n : Nat} (h : n ≤ k) : lowered k n = n := if_neg (Nat.not_lt.mpr h)

namespace Phase

/-- The next line belongs to a heredoc. -/
def Waiting : Phase → Prop
  | inHeredoc .. => True
  | _ => False

theorem step_congr {phase : Phase} {n : Nat} (h : ¬ phase.Waiting) (hl : trim l = trim line) :
    phase.step escape n l = phase.step escape n line := by
  cases phase with
  | between => simp only [step, hl]
  | joining pieces first last => simp only [step, hl]
  | inHeredoc => exact absurd trivial h

/-- The open statement ends on the idle line for now, as if all its lines after the first one had
moved down. -/
theorem step_idle (h : ¬ (between.run escape 1 above).1.Waiting) (hline : Idle line) :
    (between.run escape 1 above).1.step escape (above.length + 1) line =
      ((between.run escape 1 above).1.renumber (lowered above.length) 1, []) := by
  have hskip := isSkipped_trim_iff.mpr hline
  have htail := (covers_run escape above).tail
  have hbefore := (spans_run escape above).before
  generalize (between.run escape 1 above).1 = phase at h htail hbefore
  cases phase with
  | between =>
    simp only [step, hskip, if_true]
    rfl
  | joining pieces first last =>
    obtain rfl : last = above.length := htail.1
    have hfirst : lowered above.length first = first := lowered_of_le hbefore.2.1
    simp only [step, hskip, if_true, renumber, hfirst]
  | inHeredoc => exact absurd trivial h

/-- A heredoc that the line fills ends in its word, which holds no carriage return. -/
theorem step_dropReturn {phase : Phase} {n : Nat} (hsound : phase.Sound escape)
    (h : (phase.run escape n [last]).1.finish = .ok ss) :
    phase.step escape n (dropReturn last) = phase.step escape n last := by
  cases phase with
  | between | joining => exact step_congr id (trim_dropReturn last)
  | inHeredoc text first marker later body =>
    obtain ⟨filled, rest, hcut, hfilled⟩ := exists_filled h
    obtain rfl : filled = [last] := by
      rcases List.append_eq_singleton_iff.mp hcut.symm with ⟨hnil, -⟩ | ⟨hlast, -⟩
      · exact absurd hnil hfilled.ne_nil
      · exact hlast
    have hreturn : '\r' ∉ last :=
      (hsound.2 _ hfilled).return_not_mem (fun _ => isWord_of_mem_openedBy) (by simp)
    rw [dropReturn_of_getLast?_ne fun hlast => hreturn (List.mem_of_mem_getLast? hlast)]

end Phase

/-! ## Lines of heredocs -/

/-- The line with the index `k` belongs to a heredoc of the statement. -/
def HasHeredocAt (k : Nat) (s : Statement) : Prop := s.last - s.body.length ≤ k ∧ k < s.last

theorem exists_hasHeredocAt (hwaiting : (Phase.between.run escape 1 above).1.Waiting)
    (h : ofLines escape (above ++ below) = .ok ss) : ∃ s ∈ ss, s.HasHeredocAt above.length := by
  obtain ⟨open?, hopen, rfl⟩ := ofLines_eq_ok.mp h
  rw [Phase.run_append] at hopen ⊢
  generalize Phase.between.run escape 1 above = ended at hwaiting hopen ⊢
  obtain ⟨phase, done⟩ := ended
  cases phase with
  | inHeredoc text first marker later body =>
    obtain ⟨filled, rest, rfl, hfilled⟩ := Phase.exists_filled hopen
    have hpos := List.length_pos_iff.mpr hfilled.ne_nil
    rw [Phase.run_append, Phase.run_filled hfilled]
    refine ⟨_, List.mem_append_left _ (List.mem_append_right _
      (List.mem_append_left _ List.mem_cons_self)), ?_, ?_⟩
    · show 1 + above.length + filled.length - 1 - _ ≤ above.length
      simp only [List.length_append, List.length_reverse]
      omega
    · show above.length < 1 + above.length + filled.length - 1
      omega
  | between | joining => exact absurd hwaiting id

/-- In a source, a line feed stands in front of each line of the heredocs. -/
theorem lineFeeds_source {s : Statement} (h : s.Chars (· ≠ '\n')) :
    lineFeeds s.source = s.body.length := by
  have hlines : ∀ l ∈ s.text :: s.body, '\n' ∉ l :=
    List.forall_mem_cons.mpr ⟨fun hmem => h.1 _ hmem rfl, fun l hl hmem => h.2 l hl _ hmem rfl⟩
  rw [source_eq_unlines, lineFeeds_unlines hlines]
  rfl

/-- Where no heredoc of a statement takes the line, the reader waits for no terminator. -/
theorem not_waiting (h : ofLines escape (above ++ below) = .ok ss)
    (hheredoc : ∀ s ∈ ss, ¬ s.HasHeredocAt above.length) :
    ¬ (Phase.between.run escape 1 above).1.Waiting := fun hwaiting => by
  obtain ⟨s, hs, hat⟩ := exists_hasHeredocAt hwaiting h
  exact hheredoc s hs hat

/-! ## Lines read like others -/

/-- From the phase on, the lines hold the statements of the others. Those that start behind the line
with the index `k` start one line further down. -/
structure Phase.ReadsLike (escape : Char) (n k : Nat) (phase : Phase) (ls others : List Text) :
    Prop where
  finish_eq : (phase.run escape n ls).1.finish =
    ((phase.run escape n others).1.renumber (lowered k) 1).finish
  new_eq : (phase.run escape n ls).2 =
    (phase.run escape n others).2.map (Statement.renumber (lowered k) 1)

/-- The statements that the lines above complete stay where they are. The other ones have the same
texts and bodies, and those behind the line start further down. -/
theorem exists_ofLines_of_readsLike {ls others : List Text} {k : Nat}
    (hlike : (Phase.between.run escape 1 above).1.ReadsLike escape (above.length + 1) k ls others)
    (hk : above.length ≤ k) (h : ofLines escape (above ++ others) = .ok ss) :
    ∃ ts, ofLines escape (above ++ ls) = .ok ts ∧
      ts.map (fun t => (t.text, t.body, t.first)) =
        ss.map (fun s => (s.text, s.body, lowered k s.first)) := by
  have hspans := Phase.spans_run escape above
  -- A statement that is complete above the lines starts there, too.
  have hdone : ∀ s ∈ (Phase.between.run escape 1 above).2, lowered k s.first = s.first :=
    fun s hs => lowered_of_le (Nat.le_trans (hspans.spanned s hs).first_le_last
      (Nat.le_trans (Nat.le_of_lt_succ (hspans.last_lt' s hs)) hk))
  have hn : 1 + above.length = above.length + 1 := Nat.add_comm 1 _
  obtain ⟨open?, hopen, rfl⟩ := ofLines_eq_ok.mp h
  refine ⟨_, ofLines_eq_ok.mpr ⟨open?.map (renumber (lowered k) 1), ?_, rfl⟩, ?_⟩
  · rw [Phase.run_append, hn] at hopen ⊢
    exact hlike.finish_eq.trans (Phase.finish_renumber hopen)
  · simp only [Phase.run_append, hn, hlike.new_eq, List.map_append, List.map_map]
    refine congrArg (· ++ _ ++ _) (List.map_congr_left fun s hs => ?_)
    rw [hdone s hs]

/-! ## One more line -/

/-- An idle line is read like no line. -/
theorem Phase.readsLike_idle (h : ¬ (between.run escape 1 above).1.Waiting) (hline : Idle line)
    (below : List Text) :
    (between.run escape 1 above).1.ReadsLike escape (above.length + 1) above.length
      (line :: below) below := by
  have hrun : ((between.run escape 1 above).1.renumber (lowered above.length) 1).run escape
      (above.length + 1 + 1) below = _ := run_renumber (fun _ => lowered_of_lt) _ below
  have hcons : (between.run escape 1 above).1.run escape (above.length + 1) (line :: below) = _ :=
    run_cons _ line below
  rw [step_idle h hline, hrun] at hcons
  exact ⟨congrArg (·.1.finish) hcons, congrArg Prod.snd hcons⟩

/-- Outside of heredocs, the statements around the new line have the same texts and bodies as without
it, and those behind it start further down. -/
theorem exists_ofLines_insert (hline : Idle line) (h : ofLines escape (above ++ below) = .ok ss)
    (hheredoc : ∀ s ∈ ss, ¬ s.HasHeredocAt above.length) :
    ∃ ts, ofLines escape (above ++ line :: below) = .ok ts ∧
      ts.map (fun t => (t.text, t.body, t.first)) =
        ss.map (fun s => (s.text, s.body, lowered above.length s.first)) :=
  exists_ofLines_of_readsLike (Phase.readsLike_idle (not_waiting h hheredoc) hline below)
    (Nat.le_refl _) h

/-- A carriage return at the end of the text is no part of its statements. -/
theorem ofLines_dropReturn (h : ofLines escape (above ++ [last]) = .ok ss) :
    ofLines escape (above ++ [dropReturn last]) = .ok ss := by
  have hstart : Phase.between.Sound escape := trivial
  have hsound := (Phase.sound_run (n := 1) hstart above).1
  obtain ⟨open?, hopen, -⟩ := ofLines_eq_ok.mp h
  rw [Phase.run_append] at hopen
  unfold ofLines at h ⊢
  rw [Phase.run_append, Phase.run_cons] at h ⊢
  rwa [Phase.step_dropReturn hsound hopen]

end Dockerfile.Statement
