import Dockerfile.Proofs.Statement.Move

/-!
# The lines and characters of statements

* `Statement.ofLines_spans`: statements cover disjoint runs of the physical lines in order, each at
  least one line and all lines of its heredocs.
* `Statement.ofLines_chars`: statements consist of the characters of the lines, and of spaces.
-/

namespace Dockerfile.Statement

open Text

variable {escape : Char} {lines : List Text} {ss : List Statement}

/-! ## Spans -/

/-- The lines of a statement are counted from one, and its heredocs stand below its first line. -/
structure Spanned (s : Statement) : Prop where
  one_le_first : 1 ≤ s.first
  first_add_le_last : s.first + s.body.length ≤ s.last

theorem Spanned.first_le_last {s : Statement} (h : s.Spanned) : s.first ≤ s.last :=
  Nat.le_trans (Nat.le_add_right _ _) h.first_add_le_last

namespace Phase

/-- The first line of the open statement, or the line to be read next. -/
def start (n : Nat) : Phase → Nat
  | between => n
  | joining _ first _ => first
  | inHeredoc _ first _ _ _ => first

/-- The open statement stands on lines before the one with the number `n`. -/
def Before (n : Nat) : Phase → Prop
  | between => 1 ≤ n
  | joining _ first last => 1 ≤ first ∧ first ≤ last ∧ last < n
  | inHeredoc _ first _ _ body => 1 ≤ first ∧ first + body.length < n

/-- The statements so far cover disjoint runs of lines in order, before the open one. -/
structure Spans (n : Nat) (phase : Phase) (ss : List Statement) : Prop where
  before : phase.Before n
  spanned : ∀ s ∈ ss, s.Spanned
  ordered : ss.Pairwise fun s t => s.last < t.first
  last_lt : ∀ s ∈ ss, s.last < phase.start n
  last_lt' : ∀ s ∈ ss, s.last < n

theorem Open.bounds {n : Nat} {phase : Phase} {pieces : List Text} {first : Nat}
    (ho : Open n phase pieces first) (h : phase.Before n) :
    phase.start n = first ∧ 1 ≤ first ∧ first ≤ n := by
  cases ho with
  | between => exact ⟨rfl, h, Nat.le_refl n⟩
  | joining pieces first last => exact ⟨rfl, h.1, by have := h.2; omega⟩

/-- A move that completes no statement. -/
theorem Spans.move {n : Nat} {phase phase' : Phase} (h : Spans n phase ss)
    (hbefore : phase'.Before (n + 1)) (hstart : phase.start n ≤ phase'.start (n + 1)) :
    Spans (n + 1) phase' (ss ++ []) := by
  rw [List.append_nil]
  exact ⟨hbefore, h.spanned, h.ordered, fun s hs => Nat.lt_of_lt_of_le (h.last_lt s hs) hstart,
    fun s hs => Nat.lt_succ_of_lt (h.last_lt' s hs)⟩

/-- A move that completes the open statement. -/
theorem Spans.complete {n : Nat} {phase : Phase} {s : Statement} (h : Spans n phase ss)
    (hs : s.Spanned) (hfirst : s.first = phase.start n) (hlast : s.last = n) :
    Spans (n + 1) between (ss ++ [s]) := by
  have hn : 1 ≤ n := by have := hs.1; have := hs.2; omega
  refine ⟨Nat.le_succ_of_le hn, ?_, ?_, ?_, ?_⟩
  · intro t ht
    rcases List.mem_append.mp ht with ht | ht
    · exact h.spanned t ht
    · rwa [List.mem_singleton.mp ht]
  · rw [List.pairwise_append]
    refine ⟨h.ordered, List.pairwise_singleton _ _, fun t ht u hu => ?_⟩
    rw [List.mem_singleton.mp hu, hfirst]
    exact h.last_lt t ht
  all_goals
    intro t ht
    show t.last < n + 1
    rcases List.mem_append.mp ht with ht | ht
    · have := h.last_lt' t ht
      omega
    · rw [List.mem_singleton.mp ht]
      omega

theorem Spans.of_move {n : Nat} {line : Text} {phase phase' : Phase} {new : List Statement}
    (h : Spans n phase ss) (hmove : Move escape n line phase phase' new) :
    Spans (n + 1) phase' (ss ++ new) := by
  have hb := h.before
  cases hmove with
  | skip => exact h.move (Nat.le_succ_of_le hb) (Nat.le_succ n)
  | inner pieces first last =>
    exact h.move ⟨hb.1, by have := hb.2; omega, Nat.lt_succ_self n⟩ (Nat.le_refl first)
  | goesOn before ho =>
    obtain ⟨hstart, h1, hn⟩ := ho.bounds hb
    exact h.move ⟨h1, hn, Nat.lt_succ_self n⟩ (Nat.le_of_eq hstart)
  | plain ho =>
    obtain ⟨hstart, h1, hn⟩ := ho.bounds hb
    exact h.complete ⟨h1, hn⟩ hstart.symm rfl
  | opens marker later ho =>
    obtain ⟨hstart, h1, hn⟩ := ho.bounds hb
    exact h.move ⟨h1, Nat.lt_succ_of_le hn⟩ (Nat.le_of_eq hstart)
  | body text first marker later body =>
    exact h.move ⟨hb.1, by have := hb.2; simp only [List.length_cons]; omega⟩ (Nat.le_refl first)
  | next text first marker next later body =>
    exact h.move ⟨hb.1, by have := hb.2; simp only [List.length_cons]; omega⟩ (Nat.le_refl first)
  | terminator text first marker body =>
    refine h.complete ⟨hb.1, ?_⟩ rfl rfl
    have := hb.2
    simp only [List.length_reverse, List.length_cons]
    omega

theorem spans_run (escape : Char) (ls : List Text) :
    Spans (ls.length + 1) (between.run escape 1 ls).1 (between.run escape 1 ls).2 := by
  have hrun := run_between_invariant escape 1 ls Spans
    (fun n line phase phase' ss new _ h hmove => h.of_move hmove)
    ⟨Nat.le_refl 1, by simp, .nil, by simp, by simp⟩
  rwa [Nat.add_comm] at hrun

end Phase

/-- The statements of a text cover disjoint runs of its lines in order. -/
theorem ofLines_spans (h : ofLines escape lines = .ok ss) :
    ss.Pairwise (fun s t => s.last < t.first) ∧
      ∀ s ∈ ss, s.Spanned ∧ s.last ≤ lines.length := by
  obtain ⟨last, hfinish, rfl⟩ := ofLines_eq_ok.mp h
  have hrun := Phase.spans_run escape lines
  generalize Phase.between.run escape 1 lines = ended at hrun hfinish
  have hmem (s : Statement) (hs : s ∈ ended.2) : s.Spanned ∧ s.last ≤ lines.length :=
    ⟨hrun.spanned s hs, by have := hrun.last_lt' s hs; omega⟩
  rcases Phase.finish_eq_ok hfinish with ⟨-, rfl⟩ | ⟨pieces, first, l, hphase, rfl⟩
  · rw [List.append_nil]
    exact ⟨hrun.ordered, hmem⟩
  · have hb := hrun.before
    have hlt := hrun.last_lt
    rw [hphase] at hb hlt
    -- The open statement may be dropped for want of text.
    unfold keep
    split
    · rw [List.append_nil]
      exact ⟨hrun.ordered, hmem⟩
    · constructor
      · rw [List.pairwise_append]
        refine ⟨hrun.ordered, List.pairwise_singleton _ _, fun s hs t ht => ?_⟩
        rw [List.mem_singleton.mp ht]
        exact hlt s hs
      · intro s hs
        rcases List.mem_append.mp hs with hs | hs
        · exact hmem s hs
        · rw [List.mem_singleton.mp hs]
          exact ⟨⟨hb.1, hb.2.1⟩, by have := hb.2.2; show l ≤ lines.length; omega⟩

/-! ## Characters -/

/-- All characters of a statement have a property. -/
def Chars (P : Char → Prop) (s : Statement) : Prop :=
  (∀ c ∈ s.text, P c) ∧ ∀ l ∈ s.body, ∀ c ∈ l, P c

variable {P : Char → Prop}

theorem joinPieces_chars {pieces : List Text} (hspace : P ' ') (h : ∀ p ∈ pieces, ∀ c ∈ p, P c) :
    ∀ c ∈ joinPieces pieces, P c :=
  forall_mem_joinWith (by simpa using hspace) fun p hp => h p (List.mem_reverse.mp hp)

namespace Phase

/-- All characters of the open statement have a property. -/
def Chars (P : Char → Prop) : Phase → Prop
  | between => True
  | joining pieces _ _ => ∀ p ∈ pieces, ∀ c ∈ p, P c
  | inHeredoc text _ _ _ body => (∀ c ∈ text, P c) ∧ ∀ l ∈ body, ∀ c ∈ l, P c

theorem Open.chars {n : Nat} {phase : Phase} {pieces : List Text} {first : Nat}
    (ho : Open n phase pieces first) (h : phase.Chars P) : ∀ p ∈ pieces, ∀ c ∈ p, P c := by
  cases ho with
  | between => simp
  | joining pieces first last => exact h

theorem chars_of_move {n : Nat} {line : Text} {phase phase' : Phase} {new : List Statement}
    (hspace : P ' ') (hline : ∀ c ∈ line, P c) (h : phase.Chars P)
    (hmove : Move escape n line phase phase' new) :
    phase'.Chars P ∧ ∀ s ∈ new, s.Chars P := by
  have htrim : ∀ c ∈ trim line, P c := fun c hc => hline c (mem_of_mem_trim hc)
  have hclosed {pieces : List Text} {first : Nat} (ho : Open n phase pieces first) :
      ∀ c ∈ joinPieces (trim line :: pieces), P c :=
    joinPieces_chars hspace (List.forall_mem_cons.mpr ⟨htrim, ho.chars h⟩)
  cases hmove with
  | skip => exact ⟨trivial, by simp⟩
  | inner => exact ⟨h, by simp⟩
  | @goesOn _ pieces first before ho _ hbefore =>
    refine ⟨fun p hp => ?_, by simp⟩
    unfold addPiece at hp
    split at hp
    · exact ho.chars h p hp
    · rcases List.mem_cons.mp hp with rfl | hp
      · intro c hc
        apply htrim
        rw [hbefore]
        exact List.mem_append_left _ (mem_of_mem_trimEnd hc)
      · exact ho.chars h p hp
  | plain ho => exact ⟨trivial, by simpa [Statement.Chars] using hclosed ho⟩
  | opens marker later ho => exact ⟨⟨hclosed ho, by simp⟩, by simp⟩
  | body => exact ⟨⟨h.1, List.forall_mem_cons.mpr ⟨hline, h.2⟩⟩, by simp⟩
  | next => exact ⟨⟨h.1, List.forall_mem_cons.mpr ⟨hline, h.2⟩⟩, by simp⟩
  | terminator =>
    refine ⟨trivial, List.forall_mem_singleton.mpr ⟨h.1, fun l hl => ?_⟩⟩
    rw [List.mem_reverse] at hl
    exact List.forall_mem_cons.mpr ⟨hline, h.2⟩ l hl

end Phase

/-- What all characters of the lines and the space have in common, all characters of the statements
have. -/
theorem ofLines_chars (hspace : P ' ') (hlines : ∀ l ∈ lines, ∀ c ∈ l, P c)
    (h : ofLines escape lines = .ok ss) : ∀ s ∈ ss, s.Chars P := by
  obtain ⟨last, hfinish, rfl⟩ := ofLines_eq_ok.mp h
  obtain ⟨hphase, hnew⟩ := Phase.run_between_invariant escape 1 lines
    (fun _ phase ss => phase.Chars P ∧ ∀ s ∈ ss, s.Chars P)
    (fun n line phase phase' ss new hl h hmove => by
      obtain ⟨hphase, hnew⟩ := Phase.chars_of_move hspace (hlines line hl) h.1 hmove
      exact ⟨hphase, List.forall_mem_append.mpr ⟨h.2, hnew⟩⟩)
    ⟨trivial, by simp⟩
  refine List.forall_mem_append.mpr ⟨hnew, ?_⟩
  rcases Phase.finish_eq_ok hfinish with ⟨-, rfl⟩ | ⟨pieces, first, l, hjoining, rfl⟩
  · simp
  · rw [hjoining] at hphase
    unfold keep
    split
    · simp
    · exact List.forall_mem_singleton.mpr ⟨joinPieces_chars hspace hphase, by simp⟩

end Dockerfile.Statement
