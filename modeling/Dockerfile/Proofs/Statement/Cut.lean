import Dockerfile.Escape
import Dockerfile.Proofs.Statement.Insert

/-!
# Lines cut in two

A line with something to read may be cut in two at a space, if the first part goes on. The pieces of
the open statement are then other ones, but they form the same text.

* `Statement.Phase.Alike`: phases whose open statements differ in their pieces only.
* `Statement.Phase.Alike.step`, `Statement.Phase.Alike.run`: they are read on alike.
* `Statement.Phase.readsLike_cut`: the two parts are read like the line that they form.
* `Statement.exists_ofLines_cut`: what the statements of the lines have in common with those of the
  lines with one of them cut.
-/

namespace Dockerfile.Statement

open Text

variable {escape : Char} {n first : Nat} {f : Nat → Nat} {line a b : Text}
  {above below pieces others : List Text} {ss : List Statement}

/-! ## Pieces -/

theorem joinPieces_addPiece_congr (h : joinPieces pieces = joinPieces others)
    (hnil : pieces = [] ↔ others = []) (p : Text) :
    joinPieces (addPiece p pieces) = joinPieces (addPiece p others) := by
  unfold addPiece
  split
  · exact h
  · by_cases hp : pieces = []
    · rw [hp, hnil.mp hp]
    · rw [joinPieces_cons hp, joinPieces_cons fun ho => hp (hnil.mpr ho), h]

theorem addPiece_eq_nil_congr (hnil : pieces = [] ↔ others = []) (p : Text) :
    addPiece p pieces = [] ↔ addPiece p others = [] := by
  unfold addPiece
  split
  · exact hnil
  · simp

/-- Two pieces form the text of one piece with a space in it. -/
theorem joinPieces_cons_cons :
    joinPieces (b :: a :: pieces) = joinPieces ((a ++ ' ' :: b) :: pieces) := by
  rw [joinPieces_cons (List.cons_ne_nil a pieces)]
  by_cases hp : pieces = []
  · subst hp
    rfl
  · rw [joinPieces_cons hp, joinPieces_cons hp, List.append_assoc]
    rfl

theorem getLast?_append_space (hb : b ≠ []) : (a ++ ' ' :: b).getLast? = b.getLast? := by
  rw [List.append_cons, List.getLast?_append_of_ne_nil _ hb]

theorem piece_snd (escape : Char) (line : Text) :
    (piece escape line).2 = decide (line.getLast? = some escape) := by
  unfold piece dropEnd?
  by_cases h : line.getLast? = some escape <;> simp [h]

theorem piece_concat (escape : Char) (line : Text) :
    piece escape (line ++ [escape]) = (trimEnd line, true) := by
  simp [piece, dropEnd?]

/-- The line goes on if its part behind a space does. -/
theorem piece_cut_snd (hb : b ≠ []) : (piece escape (a ++ ' ' :: b)).2 = (piece escape b).2 := by
  rw [piece_snd, piece_snd, getLast?_append_space hb]

/-- A line adds to a statement what its parts before and behind a space add. -/
theorem piece_cut_fst (ha : NoTrail a) (hb : b ≠ []) :
    (piece escape (a ++ ' ' :: b)).1 =
      if (piece escape b).1 = [] then a else a ++ ' ' :: (piece escape b).1 := by
  cases hp : (piece escape b).2 with
  | false =>
    obtain ⟨hpiece, hlast⟩ := piece_of_not_continues hp
    rw [hpiece, if_neg hb, piece_of_getLast?_ne (by rwa [getLast?_append_space hb])]
  | true =>
    obtain ⟨before, rfl, hpiece⟩ := piece_of_continues hp
    rw [hpiece, ← List.cons_append, ← List.append_assoc, piece_concat]
    split
    · -- The part consists of the escape character.
      rename_i hnil
      have hblank : Blank (' ' :: before) :=
        List.forall_mem_cons.mpr ⟨by decide, blank_of_trimEnd_eq_nil hnil⟩
      exact (trimEnd_append_of_blank hblank).trans ha.trimEnd_eq
    · rename_i hne
      have hspace : trimEnd (' ' :: before) = ' ' :: trimEnd before :=
        trimEnd_append (t := [' ']) hne
      exact (trimEnd_append (by simp [hspace])).trans (congrArg (a ++ ·) hspace)

/-- The same text comes of it if the part before the space is a piece of its own. -/
theorem joinPieces_addPiece_cut (escape : Char) (pieces : List Text) (ha : NoTrail a) (hne : a ≠ [])
    (hb : b ≠ []) :
    joinPieces (addPiece (piece escape b).1 (a :: pieces)) =
        joinPieces (addPiece (piece escape (a ++ ' ' :: b)).1 pieces) ∧
      addPiece (piece escape b).1 (a :: pieces) ≠ [] ∧
      addPiece (piece escape (a ++ ' ' :: b)).1 pieces ≠ [] := by
  rw [piece_cut_fst ha hb]
  by_cases hpiece : (piece escape b).1 = []
  · simp [hpiece, addPiece, hne]
  · rw [if_neg hpiece, addPiece, addPiece, if_neg hpiece, if_neg (by simp)]
    exact ⟨joinPieces_cons_cons, by simp, by simp⟩

/-! ## Cuts -/

/-- A line that is no comment may be cut at the space between its two parts: no other white space
stands there, and the second part starts no comment. -/
structure CutAt (a b : Text) : Prop where
  noTrail : NoTrail a
  ne_nil : a ≠ []
  not_comment : '#' ∉ (trimStart a).head?
  noLead : NoLead b
  part_ne_nil : b ≠ []
  part_not_comment : '#' ∉ b.head?

theorem isSkipped_eq_false {t : Text} (hne : t ≠ []) (h : '#' ∉ t.head?) :
    isSkipped t = false := by
  obtain ⟨c, rest, rfl⟩ := List.exists_cons_of_ne_nil hne
  simpa [isSkipped] using h

namespace CutAt

variable (h : CutAt a b)
include h

theorem trimStart_ne_nil : trimStart a ≠ [] := fun hnil =>
  h.ne_nil (h.noTrail.eq_nil_of_blank (blank_of_trimStart_eq_nil hnil))

theorem noTrail_trimStart : NoTrail (trimStart a) := by
  obtain ⟨lead, -, ha⟩ := exists_trimStart a
  have htrail := h.noTrail
  rw [ha] at htrail
  exact htrail.of_append

theorem trim_part : trim b = trimEnd b := by rw [trim, h.noLead.trimStart_eq]

theorem trim_part_ne_nil : trim b ≠ [] := fun hnil => by
  rw [h.trim_part] at hnil
  exact h.part_ne_nil (h.noLead.eq_nil_of_blank (blank_of_trimEnd_eq_nil hnil))

theorem trim_line : trim (a ++ ' ' :: b) = trimStart a ++ ' ' :: trim b := by
  have hpart : trimEnd b ≠ [] := h.trim_part ▸ h.trim_part_ne_nil
  have hspace : trimEnd (' ' :: b) = ' ' :: trimEnd b := trimEnd_append (t := [' ']) hpart
  rw [trim, trimStart_append h.trimStart_ne_nil, trimEnd_append (by simp [hspace]), hspace,
    h.trim_part]

theorem not_isSkipped_line : isSkipped (trim (a ++ ' ' :: b)) = false := by
  rw [h.trim_line]
  refine isSkipped_eq_false (by simp) ?_
  obtain ⟨c, rest, hcons⟩ := List.exists_cons_of_ne_nil h.trimStart_ne_nil
  have hcomment := h.not_comment
  rw [hcons] at hcomment ⊢
  exact hcomment

theorem not_isSkipped_part : isSkipped (trim b) = false := by
  refine isSkipped_eq_false h.trim_part_ne_nil ?_
  obtain ⟨c, rest, hcons⟩ := List.exists_cons_of_ne_nil h.trim_part_ne_nil
  obtain ⟨trail, -, hb⟩ := exists_trimEnd b
  have hcomment := h.part_not_comment
  rw [hb, ← h.trim_part, hcons] at hcomment
  rw [hcons]
  exact hcomment

/-- The first part goes on where the second one stood. -/
theorem escape_part (hescape : Escape.isValid escape) : CutAt a [escape] := by
  refine ⟨h.noTrail, h.ne_nil, h.not_comment, ?_, by simp, ?_⟩
  all_goals
    rw [Escape.isValid, Bool.or_eq_true, beq_iff_eq, beq_iff_eq] at hescape
    rcases hescape with rfl | rfl <;> decide

end CutAt

namespace Phase

/-! ## Phases with other pieces -/

/-- The phases differ at most in the pieces that form the text of the open statement. -/
inductive Alike : Phase → Phase → Prop
  | refl (phase : Phase) : Alike phase phase
  | joining {pieces others : List Text} (first last : Nat) :
      joinPieces pieces = joinPieces others → (pieces = [] ↔ others = []) →
      Alike (joining pieces first last) (joining others first last)

variable {phase phase' : Phase}

theorem alike_join (h : joinPieces pieces = joinPieces others) (hnil : pieces = [] ↔ others = [])
    (line : Text) :
    Alike (join escape n pieces first line).1 (join escape n others first line).1 ∧
      (join escape n pieces first line).2 = (join escape n others first line).2 := by
  have hadd := joinPieces_addPiece_congr h hnil (piece escape line).1
  simp only [join]
  split
  · exact ⟨.joining first n hadd (addPiece_eq_nil_congr hnil _), rfl⟩
  · rw [hadd]
    exact ⟨.refl _, rfl⟩

theorem Alike.step (h : Alike phase phase') (escape : Char) (n : Nat) (line : Text) :
    Alike (phase.step escape n line).1 (phase'.step escape n line).1 ∧
      (phase.step escape n line).2 = (phase'.step escape n line).2 := by
  cases h with
  | refl => exact ⟨.refl _, rfl⟩
  | joining first last htext hnil =>
    simp only [Phase.step]
    split
    · exact ⟨.joining first n htext hnil, rfl⟩
    · exact alike_join htext hnil _

theorem Alike.run (h : Alike phase phase') (escape : Char) (n : Nat) (ls : List Text) :
    Alike (phase.run escape n ls).1 (phase'.run escape n ls).1 ∧
      (phase.run escape n ls).2 = (phase'.run escape n ls).2 := by
  induction ls generalizing phase phase' n with
  | nil => exact ⟨h, rfl⟩
  | cons line ls ih =>
    obtain ⟨hphase, hnew⟩ := h.step escape n line
    obtain ⟨hrest, hmore⟩ := ih hphase (n + 1)
    exact ⟨hrest, congrArg₂ (· ++ ·) hnew hmore⟩

theorem Alike.finish_eq (h : Alike phase phase') : phase.finish = phase'.finish := by
  cases h with
  | refl => rfl
  | joining first last htext => simp only [finish, htext]

/-! ## A line in two parts -/

/-- Where no heredoc takes the next line, it belongs to the open statement, or starts one. -/
theorem exists_open (h : ¬ phase.Waiting) (n : Nat) : ∃ pieces first, Open n phase pieces first := by
  cases phase with
  | between => exact ⟨[], n, .between⟩
  | joining pieces first last => exact ⟨pieces, first, .joining pieces first last⟩
  | inHeredoc => exact absurd trivial h

theorem Open.step_eq (ho : Open n phase pieces first) (h : isSkipped (trim line) = false) :
    phase.step escape n line = join escape n pieces first (trim line) := by
  cases ho <;> simp [step, h]

/-- The second part is joined to the first one as it is joined in the line. -/
theorem alike_join_cut (escape : Char) (n : Nat) (pieces : List Text) (ha : NoTrail a)
    (hne : a ≠ []) (hb : b ≠ []) (hf : f first = first) :
    Alike (join escape (n + 1) (a :: pieces) first b).1
        ((join escape n pieces first (a ++ ' ' :: b)).1.renumber f 1) ∧
      (join escape (n + 1) (a :: pieces) first b).2 =
        (join escape n pieces first (a ++ ' ' :: b)).2.map (Statement.renumber f 1) := by
  obtain ⟨htext, hadd, hadd'⟩ := joinPieces_addPiece_cut escape pieces ha hne hb
  simp only [join, piece_cut_snd hb]
  split
  · simp only [renumber, hf, List.map_nil, and_true]
    exact .joining first (n + 1) htext (iff_of_false hadd hadd')
  · have hclose := close_renumber (n := n) (k := 1) (f := f)
      (joinPieces (addPiece (piece escape (a ++ ' ' :: b)).1 pieces)) first
    rw [hf] at hclose
    rw [htext, hclose]
    exact ⟨.refl _, rfl⟩

/-- The first part is a piece of the open statement. -/
theorem Open.step_escape (ho : Open n phase pieces first) (h : CutAt a b)
    (hescape : Escape.isValid escape) :
    phase.step escape n (a ++ [' ', escape]) =
      (Phase.joining (trimStart a :: pieces) first n, []) := by
  have hpart := h.escape_part hescape
  have htrail : NoTrail [escape] := by simpa [NoTrail] using hpart.noLead
  have htrim : trim (a ++ [' ', escape]) = (trimStart a ++ [' ']) ++ [escape] := by
    rw [hpart.trim_line, Trimmed.trim_eq ⟨hpart.noLead, htrail⟩, ← List.append_cons]
  have hpiece : piece escape (trim (a ++ [' ', escape])) = (trimStart a, true) := by
    rw [htrim, piece_concat, trimEnd_concat (by decide), h.noTrail_trimStart.trimEnd_eq]
  have hadd : addPiece (trimStart a) pieces = trimStart a :: pieces := if_neg h.trimStart_ne_nil
  rw [ho.step_eq hpart.not_isSkipped_line]
  simp only [join, hpiece, hadd, if_true]

theorem step_cut (hwaiting : ¬ phase.Waiting) (hbefore : phase.Before n) (h : CutAt a b)
    (hescape : Escape.isValid escape) :
    Alike (phase.run escape n [a ++ [' ', escape], b]).1
        ((phase.step escape n (a ++ ' ' :: b)).1.renumber (lowered n) 1) ∧
      (phase.run escape n [a ++ [' ', escape], b]).2 =
        (phase.step escape n (a ++ ' ' :: b)).2.map (Statement.renumber (lowered n) 1) := by
  obtain ⟨pieces, first, ho⟩ := exists_open hwaiting n
  have hfirst : lowered n first = first := lowered_of_le (ho.bounds hbefore).2.2
  have hcut := alike_join_cut escape n pieces h.noTrail_trimStart h.trimStart_ne_nil
    h.trim_part_ne_nil hfirst
  have hpart : (Phase.joining (trimStart a :: pieces) first n).step escape (n + 1) b =
      join escape (n + 1) (trimStart a :: pieces) first (trim b) :=
    (Open.joining _ first n).step_eq h.not_isSkipped_part
  rw [run_cons, ho.step_escape h hescape, run_cons, hpart, ho.step_eq h.not_isSkipped_line,
    h.trim_line]
  simpa only [run, List.nil_append, List.append_nil] using hcut

/-- The two parts are read like the line that they form. -/
theorem readsLike_cut (hwaiting : ¬ phase.Waiting) (hbefore : phase.Before n) (h : CutAt a b)
    (hescape : Escape.isValid escape) (below : List Text) :
    phase.ReadsLike escape n n ((a ++ [' ', escape]) :: b :: below)
      ((a ++ ' ' :: b) :: below) := by
  obtain ⟨hparts, hnew⟩ := step_cut hwaiting hbefore h hescape
  obtain ⟨hphase, hmore⟩ := hparts.run escape (n + 1 + 1) below
  have hmoved : ((phase.step escape n (a ++ ' ' :: b)).1.renumber (lowered n) 1).run escape
      (n + 1 + 1) below = _ := run_renumber (fun _ => lowered_of_lt) _ below
  rw [hmoved] at hphase hmore
  have happend : phase.run escape n ((a ++ [' ', escape]) :: b :: below) = _ :=
    run_append escape phase n [a ++ [' ', escape], b] below
  refine ⟨(congrArg (·.1.finish) happend).trans hphase.finish_eq,
    (congrArg Prod.snd happend).trans ?_⟩
  rw [run_cons phase (a ++ ' ' :: b), List.map_append, ← hnew]
  exact congrArg (_ ++ ·) hmore

end Phase

/-- Outside of heredocs, the statements around the cut have the same texts and bodies as without it,
and those behind it start further down. -/
theorem exists_ofLines_cut (hcut : CutAt a b) (hescape : Escape.isValid escape)
    (h : ofLines escape (above ++ (a ++ ' ' :: b) :: below) = .ok ss)
    (hheredoc : ∀ s ∈ ss, ¬ s.HasHeredocAt above.length) :
    ∃ ts, ofLines escape (above ++ (a ++ [' ', escape]) :: b :: below) = .ok ts ∧
      ts.map (fun t => (t.text, t.body, t.first)) =
        ss.map (fun s => (s.text, s.body, lowered (above.length + 1) s.first)) :=
  exists_ofLines_of_readsLike (Phase.readsLike_cut (not_waiting h hheredoc)
    (Phase.spans_run escape above).before hcut hescape below) (Nat.le_succ _) h

end Dockerfile.Statement
