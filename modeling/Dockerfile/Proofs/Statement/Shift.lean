import Dockerfile.Proofs.Statement.Complete

/-!
# Statements on other lines

The reader uses the number of a line only to record where statements stand. Lines that are read
further down are read as before, with other line numbers.

* `Statement.renumber`, `Statement.shift`: a statement with other line numbers.
* `Statement.Phase.step_renumber`, `Statement.Phase.run_renumber`: reading commutes with it.
* `Statement.Phase.run_shift`: the same for lines that stand further down.
* `Statement.ofLines_append`: lines behind complete statements hold the statements that they hold
  alone, further down.
-/

namespace Dockerfile.Statement

open Text

variable {escape : Char} {n k : Nat} {f : Nat → Nat} {line : Text} {lines more : List Text}
  {ss ts : List Statement}

/-- The statement with another first line, and with its last line `k` lines further down. -/
def renumber (f : Nat → Nat) (k : Nat) (s : Statement) : Statement :=
  { s with first := f s.first, last := s.last + k }

/-- The statement on lines that stand `k` lines further down. -/
def shift (k : Nat) (s : Statement) : Statement :=
  { s with first := s.first + k, last := s.last + k }

theorem map_renumber_keep (s : Statement) :
    (keep s).map (renumber f k) = keep (s.renumber f k) := by
  unfold keep
  split
  · rename_i htext
    exact (if_pos htext).symm
  · rename_i htext
    exact (if_neg htext).symm

namespace Phase

/-- The phase with the open statement on other lines. -/
def renumber (f : Nat → Nat) (k : Nat) : Phase → Phase
  | between => between
  | joining pieces first last => joining pieces (f first) (last + k)
  | inHeredoc text first marker later body => inHeredoc text (f first) marker later body

/-! ## Reading -/

theorem close_renumber (text : Text) (first : Nat) :
    close text (f first) (n + k) =
      ((close text first n).1.renumber f k, (close text first n).2.map (Statement.renumber f k)) := by
  unfold close
  split
  · rw [map_renumber_keep]
    rfl
  · rfl

theorem join_renumber (pieces : List Text) (first : Nat) :
    join escape (n + k) pieces (f first) line =
      ((join escape n pieces first line).1.renumber f k,
        (join escape n pieces first line).2.map (Statement.renumber f k)) := by
  simp only [join]
  split
  · rfl
  · exact close_renumber _ _

/-- A statement that starts with the line gets the number of the line, and one that goes on keeps its
own. -/
theorem step_renumber (hf : f n = n + k) (phase : Phase) :
    (phase.renumber f k).step escape (n + k) line =
      ((phase.step escape n line).1.renumber f k,
        (phase.step escape n line).2.map (Statement.renumber f k)) := by
  cases phase with
  | between =>
    simp only [renumber, step]
    split
    · rfl
    · have hjoin : join escape (n + k) [] (f n) (trim line) = _ := join_renumber [] n
      rwa [hf] at hjoin
  | joining pieces first last =>
    simp only [renumber, step]
    split
    · rfl
    · exact join_renumber _ _
  | inHeredoc text first marker later body =>
    simp only [renumber, step]
    split
    · cases later with
      | nil => rfl
      | cons next later => rfl
    · rfl

theorem run_renumber (hf : ∀ m, n ≤ m → f m = m + k) (phase : Phase) (ls : List Text) :
    (phase.renumber f k).run escape (n + k) ls =
      ((phase.run escape n ls).1.renumber f k,
        (phase.run escape n ls).2.map (Statement.renumber f k)) := by
  induction ls generalizing phase n with
  | nil => rfl
  | cons line ls ih =>
    have hn : n + k + 1 = n + 1 + k := by omega
    rw [run_cons, run_cons, step_renumber (hf n (Nat.le_refl n)), hn,
      ih fun m hm => hf m (Nat.le_of_succ_le hm), List.map_append]

theorem finish_renumber {phase : Phase} (h : phase.finish = .ok ss) :
    (phase.renumber f k).finish = .ok (ss.map (Statement.renumber f k)) := by
  rcases finish_eq_ok h with ⟨rfl, rfl⟩ | ⟨pieces, first, last, rfl, rfl⟩
  · rfl
  · rw [map_renumber_keep]
    rfl

/-! ## Further down -/

/-- The phase with the open statement on lines that stand `k` lines further down. -/
def shift (k : Nat) : Phase → Phase
  | between => between
  | joining pieces first last => joining pieces (first + k) (last + k)
  | inHeredoc text first marker later body => inHeredoc text (first + k) marker later body

theorem shift_eq_renumber (phase : Phase) : phase.shift k = phase.renumber (· + k) k := by
  cases phase <;> rfl

theorem run_shift (phase : Phase) (ls : List Text) :
    (phase.shift k).run escape (n + k) ls =
      ((phase.run escape n ls).1.shift k, (phase.run escape n ls).2.map (Statement.shift k)) := by
  rw [shift_eq_renumber, shift_eq_renumber]
  exact run_renumber (fun _ _ => rfl) phase ls

theorem finish_shift {phase : Phase} (h : phase.finish = .ok ss) :
    (phase.shift k).finish = .ok (ss.map (Statement.shift k)) := by
  rw [shift_eq_renumber]
  exact finish_renumber h

end Phase

/-- Lines behind complete statements hold the statements that they hold alone, further down. -/
theorem ofLines_append (hclosed : (Phase.between.run escape 1 lines).1 = .between)
    (hlines : ofLines escape lines = .ok ss) (hmore : ofLines escape more = .ok ts) :
    ofLines escape (lines ++ more) = .ok (ss ++ ts.map (shift lines.length)) := by
  obtain ⟨last, hlast, rfl⟩ := ofLines_eq_ok.mp hlines
  obtain ⟨open?, hopen, rfl⟩ := ofLines_eq_ok.mp hmore
  rw [hclosed] at hlast
  cases hlast
  have hrun : (Phase.between.shift lines.length).run escape (1 + lines.length) more = _ :=
    Phase.run_shift .between more
  rw [ofLines_eq_ok, Phase.run_append, hclosed]
  refine ⟨open?.map (shift lines.length), ?_, ?_⟩
  · exact (congrArg (·.1.finish) hrun).trans (Phase.finish_shift hopen)
  · have hmap := congrArg Prod.snd hrun
    simp only [List.append_nil, List.map_append, ← List.append_assoc]
    exact congrArg (_ ++ · ++ _) hmap.symm

end Dockerfile.Statement
