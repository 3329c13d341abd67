import Dockerfile.Proofs.Statement.Complete
import Dockerfile.Proofs.Statement.Coverage

/-!
# Statements that the end of the text completes

The last line with something to read may go on, although only blank lines and comments follow. The
statement on that line ends with the text, and its heredocs are not read. Each other statement has
the bodies of all its heredocs.

* `Statement.GoesOnAt`, `Statement.LeftOpen`: the line that goes on, and the statement on it.
* `Statement.Phase.Ends`, `Statement.Phase.Ends.of_move`: how the open statement and the complete
  ones end.
* `Statement.ofLines_filled`: which statements have the bodies of their heredocs.
-/

namespace Dockerfile.Statement

open Text Heredoc

variable {escape : Char} {line : Text} {ls : List Text} {ss : List Statement} {n : Nat}

/-- The last line with something to read has the number `n`, and it ends in the escape character. -/
def GoesOnAt (escape : Char) (ls : List Text) (n : Nat) : Prop :=
  ∃ k line, n = k + 1 ∧ ls[k]? = some line ∧ ¬ Idle line ∧ (trim line).getLast? = some escape ∧
    ∀ m l, k < m → ls[m]? = some l → Idle l

/-- The last line with something to read belongs to the statement, and it goes on. -/
def LeftOpen (escape : Char) (ls : List Text) (s : Statement) : Prop :=
  ∃ n, GoesOnAt escape ls n ∧ s.On n

theorem GoesOnAt.le_length (h : GoesOnAt escape ls n) : n ≤ ls.length := by
  obtain ⟨k, l, rfl, hl, -⟩ := h
  exact (List.getElem?_eq_some_iff.mp hl).1

theorem GoesOnAt.append (h : GoesOnAt escape ls n) (hline : Idle line) :
    GoesOnAt escape (ls ++ [line]) n := by
  obtain ⟨k, l, rfl, hl, hbusy, hlast, hidle⟩ := h
  have hk : k < ls.length := (List.getElem?_eq_some_iff.mp hl).1
  refine ⟨k, l, rfl, by rw [List.getElem?_append_left hk, hl], hbusy, hlast, fun m l' hm hl' => ?_⟩
  rcases getElem?_concat_cases hl' with ⟨-, hl'⟩ | ⟨-, rfl⟩
  · exact hidle m l' hm hl'
  · exact hline

theorem goesOnAt_concat (hskip : isSkipped (trim line) = false)
    (hlast : (trim line).getLast? = some escape) :
    GoesOnAt escape (ls ++ [line]) (ls.length + 1) := by
  refine ⟨ls.length, line, rfl, List.getElem?_concat_length, fun hidle => ?_, hlast,
    fun m l hm hl => ?_⟩
  · rw [isSkipped_trim_iff.mpr hidle] at hskip
    cases hskip
  · rcases getElem?_concat_cases hl with ⟨hlt, -⟩ | ⟨rfl, -⟩
    · omega
    · exact absurd hm (Nat.lt_irrefl _)

namespace Phase

/-! ## The ends of statements -/

/-- Of the lines read so far, the last one with something to read goes on if a statement is open on
it, and the last line of a complete statement with a body is the last line of that body. -/
structure Ends (escape : Char) (ls : List Text) (phase : Phase) (ss : List Statement) : Prop where
  goesOn : ∀ pieces first last, phase = joining pieces first last →
    ∃ n, first ≤ n ∧ GoesOnAt escape ls n
  body : ∀ s ∈ ss, s.body ≠ [] → ∃ k, s.last = k + 1 ∧ ls[k]? = s.body.getLast?

/-- Lines that have been read stay where they are. -/
theorem Ends.body_append {phase : Phase} (h : Ends escape ls phase ss) (line : Text) :
    ∀ s ∈ ss, s.body ≠ [] → ∃ k, s.last = k + 1 ∧ (ls ++ [line])[k]? = s.body.getLast? := by
  intro s hs hbody
  obtain ⟨k, hk, hl⟩ := h.body s hs hbody
  have hlt : k < ls.length := by
    rw [List.getLast?_eq_some_getLast hbody] at hl
    exact (List.getElem?_eq_some_iff.mp hl).1
  exact ⟨k, hk, by rw [List.getElem?_append_left hlt, hl]⟩

/-- A statement starts or goes on with a line behind its first one. -/
theorem Open.first_le {phase : Phase} {pieces : List Text} {first : Nat}
    (ho : Open (ls.length + 1) phase pieces first) (h : Ends escape ls phase ss) :
    first ≤ ls.length + 1 := by
  cases ho with
  | between => exact Nat.le_refl _
  | joining pieces first last =>
    obtain ⟨n, hfirst, hn⟩ := h.goesOn _ _ _ rfl
    have := hn.le_length
    omega

theorem Ends.of_move {phase phase' : Phase} {new : List Statement} (h : Ends escape ls phase ss)
    (hmove : Move escape (ls.length + 1) line phase phase' new) :
    Ends escape (ls ++ [line]) phase' (ss ++ new) := by
  have hbody := h.body_append line
  cases hmove with
  | skip | opens | body | next =>
    rw [List.append_nil]
    exact ⟨by simp, hbody⟩
  | inner pieces first last hskip =>
    rw [List.append_nil]
    refine ⟨?_, hbody⟩
    rintro _ _ _ ⟨⟩
    obtain ⟨n, hfirst, hn⟩ := h.goesOn _ _ _ rfl
    exact ⟨n, hfirst, hn.append (isSkipped_trim_iff.mp hskip)⟩
  | goesOn before ho hskip hline =>
    rw [List.append_nil]
    refine ⟨?_, hbody⟩
    rintro _ _ _ ⟨⟩
    exact ⟨_, ho.first_le h, goesOnAt_concat hskip (by rw [hline, List.getLast?_concat])⟩
  | plain =>
    exact ⟨by simp, List.forall_mem_append.mpr ⟨hbody, by simp⟩⟩
  | terminator text first marker body =>
    refine ⟨by simp, List.forall_mem_append.mpr ⟨hbody, List.forall_mem_singleton.mpr fun _ => ?_⟩⟩
    exact ⟨ls.length, rfl, by simp⟩

theorem ends_run (escape : Char) (ls : List Text) :
    Ends escape ls (between.run escape 1 ls).1 (between.run escape 1 ls).2 :=
  run_prefix_invariant escape (Ends escape) (fun _ _ _ _ _ _ h hmove => h.of_move hmove)
    ⟨by simp, by simp⟩ ls

end Phase

/-! ## Bodies -/

/-- A terminator has something to read. -/
theorem not_idle_of_closes {h : Heredoc} (hword : IsWord h.word) (hl : h.closes line) :
    ¬ Idle line := by
  rw [← isSkipped_trim_iff, trim_of_closes hword hl]
  obtain ⟨c, word, hcons⟩ := List.exists_cons_of_ne_nil hword.1
  have hc : isWordChar c := hword.2 c (by simp [hcons])
  rw [hcons]
  rintro (hcomment : (c == '#') = true)
  rw [beq_iff_eq.mp hcomment] at hc
  cases hc

/-- The lines of a text complete no statement with a body on a line that goes on. -/
theorem not_leftOpen_of_mem_run {s : Statement} (hescape : isWordChar escape = false)
    (hs : s ∈ (Phase.between.run escape 1 ls).2) (hbody : s.body ≠ []) :
    ¬ s.LeftOpen escape ls := by
  rintro ⟨n, ⟨k, line, rfl, hline, -, hlast, hidle⟩, -, hle⟩
  obtain ⟨j, hj, hl⟩ := (Phase.ends_run escape ls).body s hs hbody
  rw [List.getLast?_eq_some_getLast hbody] at hl
  obtain ⟨h, hmem, hclose⟩ :=
    (complete_of_mem_run hs).filled.exists_closes (List.getLast?_eq_some_getLast hbody)
  have hword := isWord_of_mem_openedBy hmem
  rcases Nat.lt_or_ge k j with hkj | hkj
  · exact not_idle_of_closes hword hclose (hidle j _ hkj hl)
  · -- A terminator does not end in the escape character.
    obtain rfl : k = j := by omega
    rw [hline, Option.some.injEq] at hl
    rw [hl, trim_of_closes hword hclose] at hlast
    have hchar := hword.2 escape (List.mem_of_mem_getLast? hlast)
    rw [hescape] at hchar
    cases hchar

/-- A statement with heredocs has their bodies, unless it is left open at the end of the text. -/
theorem ofLines_filled (h : ofLines escape ls = .ok ss) (hescape : isWordChar escape = false)
    {s : Statement} (hs : s ∈ ss) (hopened : openedBy s.text ≠ []) :
    s.LeftOpen escape ls ∧ s.body = [] ∨
      ¬ s.LeftOpen escape ls ∧ FilledBy (openedBy s.text) s.body := by
  obtain ⟨last, hfinish, rfl⟩ := ofLines_eq_ok.mp h
  rcases List.mem_append.mp hs with hs | hs
  · have hfilled := (complete_of_mem_run hs).filled
    exact .inr ⟨not_leftOpen_of_mem_run hescape hs (hfilled.body_ne_nil hopened), hfilled⟩
  · have hends := Phase.ends_run escape ls
    have htail := (Phase.covers_run escape ls).tail
    rcases Phase.finish_eq_ok hfinish with ⟨-, rfl⟩ | ⟨pieces, first, n, hphase, rfl⟩
    · cases hs
    · rw [hphase] at htail
      obtain ⟨m, hfirst, hm⟩ := hends.goesOn _ _ _ hphase
      unfold keep at hs
      split at hs
      · cases hs
      · rw [List.mem_singleton.mp hs]
        have hlast : n = ls.length := htail.1
        exact .inl ⟨⟨m, hm, hfirst, hlast ▸ hm.le_length⟩, rfl⟩

end Dockerfile.Statement
