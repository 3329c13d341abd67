import Dockerfile.Proofs.Statement.Cut
import Dockerfile.Proofs.Statement.Lines

/-!
# How lines are divided into statements

A text consists of idle lines and of whole statements, each of which is a header with the lines of
its heredocs below it. At its end there may be a header that goes on. Instead of that, a header may
open a heredoc whose terminator is missing; then the text has no statements.

* `Statement.Whole`, `Statement.Division`: lines that are divided into statements.
* `Statement.UnterminatedAt`: lines with a heredoc whose terminator is missing.
* `Statement.division_or_unterminatedAt`: there are no other lines.
* `Statement.ofLines_eq_ok_iff_division`, `Statement.ofLines_eq_error_iff_unterminatedAt`: the
  reader finds this division, and reports the heredoc that has no terminator.
-/

namespace Dockerfile.Statement

open Text Heredoc

variable {escape : Char} {n first : Nat} {line : Text} {ls header pieces : List Text}
  {ss : List Statement} {marker : Heredoc}

/-! ## Divisions -/

/-- The first of the lines has something to read. -/
def StartsBusy (header : List Text) : Prop := ∃ line ∈ header.head?, ¬ Idle line

/-- The lines are idle lines and headers, each with the lines of its heredocs below it. -/
inductive Whole (escape : Char) : List Text → List Statement → Prop
  | nil : Whole escape [] []
  | idle {ls : List Text} {ss : List Statement} {line : Text} :
      Whole escape ls ss → Idle line → Whole escape (ls ++ [line]) ss
  | statement {ls header body : List Text} {ss : List Statement} :
      Whole escape ls ss → StartsBusy header → UpTo (endsHeader escape) header →
      FilledBy (openedBy (joined escape header)) body →
      Whole escape (ls ++ (header ++ body))
        (ss ++ [{ text := joined escape header, body, first := ls.length + 1,
                  last := ls.length + (header.length + body.length) }])

/-- The statements into which the lines are divided. A last header may go on up to the end of the
lines; it is no statement if it has no text. -/
inductive Division (escape : Char) : List Text → List Statement → Prop
  | whole {ls : List Text} {ss : List Statement} : Whole escape ls ss → Division escape ls ss
  | leftOpen {ls header : List Text} {ss : List Statement} :
      Whole escape ls ss → StartsBusy header → (∀ line ∈ header, endsHeader escape line = false) →
      Division escape (ls ++ header)
        (ss ++ keep { text := joined escape header, first := ls.length + 1,
                      last := ls.length + header.length })

/-- Below whole statements, the line with the number `n` starts a header that opens the heredoc, and
its terminator does not follow. -/
inductive UnterminatedAt (escape : Char) (marker : Heredoc) : List Text → Nat → Prop
  | intro {ls header below : List Text} {ss : List Statement} :
      Whole escape ls ss → StartsBusy header → UpTo (endsHeader escape) header →
      Unterminated marker (openedBy (joined escape header)) below →
      UnterminatedAt escape marker (ls ++ (header ++ below)) (ls.length + 1)

/-- The lines below whole statements are divided as well, or have a heredoc without its
terminator. -/
theorem Whole.division_or_unterminatedAt {ls : List Text} {ss : List Statement}
    (h : Whole escape ls ss) (below : List Text) :
    (∃ ts, Division escape (ls ++ below) ts) ∨
      ∃ marker n, UnterminatedAt escape marker (ls ++ below) n := by
  match below with
  | [] => exact .inl ⟨ss, by simpa using Division.whole h⟩
  | line :: rest =>
    by_cases hline : Idle line
    · simpa using (h.idle hline).division_or_unterminatedAt rest
    · rcases exists_upTo_or (endsHeader escape) (line :: rest) with
        hopen | ⟨header, below, hcut, hheader⟩
      · exact .inl ⟨_, .leftOpen h ⟨line, rfl, hline⟩ hopen⟩
      · have hne : header ≠ [] := by
          obtain ⟨front, l, rfl, -, -⟩ := hheader
          simp
        have hstart : StartsBusy header := by
          have hhead := congrArg List.head? hcut
          rw [List.head?_append_of_ne_nil _ hne] at hhead
          exact ⟨line, hhead.symm, hline⟩
        rw [hcut]
        rcases exists_filledBy_or (openedBy (joined escape header)) below with
          ⟨body, below, rfl, hbody⟩ | ⟨marker, hmarker⟩
        · have hshort : below.length < (line :: rest).length := by
            have := List.length_pos_iff.mpr hne
            rw [hcut, List.length_append, List.length_append]
            omega
          simpa using (h.statement hstart hheader hbody).division_or_unterminatedAt below
        · exact .inr ⟨marker, _, .intro h hstart hheader hmarker⟩
termination_by below.length
decreasing_by
  · simp
  · simpa using hshort

/-- All lines are divided into statements, or have a heredoc without its terminator. -/
theorem division_or_unterminatedAt (escape : Char) (ls : List Text) :
    (∃ ss, Division escape ls ss) ∨ ∃ marker n, UnterminatedAt escape marker ls n :=
  Whole.nil.division_or_unterminatedAt ls

/-! ## Reading headers -/

theorem StartsBusy.of_append (h : StartsBusy (header ++ ls)) (hne : header ≠ []) :
    StartsBusy header := by
  obtain ⟨line, hline, hbusy⟩ := h
  rw [List.head?_append_of_ne_nil _ hne] at hline
  exact ⟨line, hline, hbusy⟩

theorem endsHeader_iff :
    endsHeader escape line ↔
      isSkipped (trim line) = false ∧ (trim line).getLast? ≠ some escape := by
  simp [endsHeader]

theorem joined_ne_nil (h : UpTo (endsHeader escape) header) : joined escape header ≠ [] := by
  obtain ⟨front, line, rfl, -, hline⟩ := h
  obtain ⟨hskip, hlast⟩ := endsHeader_iff.mp hline
  rw [joined_concat hskip hlast]
  exact joinPieces_ne_nil (Phase.trim_ne_nil_of_not_isSkipped hskip)

namespace Phase

variable {phase : Phase}

/-- A line that does not end its header adds its text to the open statement. -/
theorem Open.step_goesOn (ho : Open n phase pieces first) (hskip : isSkipped (trim line) = false)
    (h : endsHeader escape line = false) :
    phase.step escape n line =
      (Phase.joining (addPiece (lineText escape line) pieces) first n, []) := by
  have hlast : (trim line).getLast? = some escape := by
    by_contra hlast
    rw [endsHeader_of_getLast?_ne hskip hlast] at h
    cases h
  rw [ho.step_eq hskip, join, piece_snd, lineText_of_not_isSkipped hskip]
  simp [hlast]

theorem step_joining {last : Nat} (h : endsHeader escape line = false) :
    (joining pieces first last).step escape n line =
      (joining (addPiece (lineText escape line) pieces) first n, []) := by
  cases hskip : isSkipped (trim line) with
  | true => simp [step, hskip, lineText, addPiece]
  | false => exact (Open.joining pieces first last).step_goesOn hskip h

/-- The text is complete at the last line of its header. -/
theorem Open.step_ends (ho : Open n phase (lineTexts escape header).reverse first)
    (h : endsHeader escape line) :
    phase.step escape n line = close (joined escape (header ++ [line])) first n := by
  obtain ⟨hskip, hlast⟩ := endsHeader_iff.mp h
  have hadd : addPiece (trim line) (lineTexts escape header).reverse =
      trim line :: (lineTexts escape header).reverse :=
    if_neg (trim_ne_nil_of_not_isSkipped hskip)
  rw [ho.step_eq hskip, join, piece_of_getLast?_ne hlast, joined_concat hskip hlast, ← hadd]
  rfl

theorem run_concat (phase : Phase) (n : Nat) (ls : List Text) (line : Text) :
    phase.run escape n (ls ++ [line]) =
      (((phase.run escape n ls).1.step escape (n + ls.length) line).1,
        (phase.run escape n ls).2 ++
          ((phase.run escape n ls).1.step escape (n + ls.length) line).2) := by
  rw [run_append, run_cons]
  simp [run]

/-- A header that goes on leaves its statement open. -/
theorem run_goesOn (hstart : StartsBusy header)
    (h : ∀ line ∈ header, endsHeader escape line = false) :
    between.run escape n header =
      (joining (lineTexts escape header).reverse n (n + header.length - 1), []) := by
  induction header using List.reverseRecOn with
  | nil =>
    obtain ⟨line, hline, -⟩ := hstart
    cases hline
  | append_singleton header line ih =>
    obtain ⟨hheader, hline⟩ := List.forall_mem_append.mp h
    have hline := List.forall_mem_singleton.mp hline
    have hn : n + (header ++ [line]).length - 1 = n + header.length := by simp
    rw [run_concat, hn, reverse_lineTexts_concat]
    by_cases hne : header = []
    · subst hne
      obtain ⟨l, hl, hbusy⟩ := hstart
      cases hl
      have hskip : isSkipped (trim line) = false :=
        Bool.eq_false_iff.mpr fun hskip => hbusy (isSkipped_trim_iff.mp hskip)
      exact Open.between.step_goesOn hskip hline
    · rw [ih (hstart.of_append hne) hheader, step_joining hline]
      rfl

/-- A header closes its statement. -/
theorem run_header (hstart : StartsBusy header) (h : UpTo (endsHeader escape) header) :
    between.run escape n header = close (joined escape header) n (n + header.length - 1) := by
  obtain ⟨front, line, rfl, hfront, hline⟩ := h
  have hn : n + (front ++ [line]).length - 1 = n + front.length := by simp
  rw [run_concat, hn]
  by_cases hne : front = []
  · subst hne
    rw [← Open.between.step_ends hline]
    rfl
  · have hopen : Open (n + front.length) _ (lineTexts escape front).reverse n :=
      .joining _ n (n + front.length - 1)
    rw [run_goesOn (hstart.of_append hne) hfront, ← hopen.step_ends hline]
    rfl

/-! ## Reading heredocs -/

variable {text : Text} {later : List Heredoc} {body : List Text}

/-- A heredoc stays open without its terminator. -/
theorem run_not_closes (h : ∀ l ∈ ls, marker.closes l = false) :
    ((inHeredoc text first marker later body).run escape n ls).1 =
      inHeredoc text first marker later (ls.reverse ++ body) := by
  induction ls generalizing n body with
  | nil => rfl
  | cons l ls ih =>
    obtain ⟨hl, hls⟩ := List.forall_mem_cons.mp h
    simp [run_cons, step, hl, ih hls]

theorem run_block {next : Heredoc} (h : UpTo marker.closes ls) :
    ((inHeredoc text first marker (next :: later) body).run escape n ls).1 =
      inHeredoc text first next later (ls.reverse ++ body) := by
  obtain ⟨front, l, rfl, hfront, hl⟩ := h
  rw [run_concat, run_not_closes hfront]
  simp [step, hl]

/-- Without its terminator, one of the heredocs stays open. -/
theorem run_unterminated {h : Heredoc} (hmarker : Unterminated marker (h :: later) ls) :
    ∃ later' body', ((inHeredoc text first h later body).run escape n ls).1 =
      inHeredoc text first marker later' body' := by
  generalize hopened : h :: later = opened at hmarker
  induction hmarker generalizing n h later body with
  | here hclose =>
    cases hopened
    exact ⟨_, _, run_not_closes hclose⟩
  | @later _ hs _ _ hblock hmarker ih =>
    cases hopened
    cases hs with
    | nil => cases hmarker
    | cons next later =>
      rw [run_append, run_block hblock]
      exact ih rfl

end Phase

/-! ## The reader -/

/-- Whole statements are read, and nothing is left open. -/
theorem Whole.run_eq (h : Whole escape ls ss) :
    Phase.between.run escape 1 ls = (.between, ss) := by
  induction h with
  | nil => rfl
  | @idle ls ss line _ hline ih =>
    have hskip := isSkipped_trim_iff.mpr hline
    rw [Phase.run_concat, ih]
    simp [Phase.step, hskip]
  | @statement ls header body ss _ hstart hheader hbody ih =>
    have hpos : 0 < header.length := by
      obtain ⟨front, line, rfl, -, -⟩ := hheader
      simp
    rw [Phase.run_append, ih, Phase.run_append, Phase.run_header hstart hheader, Phase.close]
    cases hopened : openedBy (joined escape header) with
    | nil =>
      rw [hopened, filledBy_nil] at hbody
      subst hbody
      have hlast : 1 + ls.length + header.length - 1 = ls.length + header.length := by omega
      rw [hlast]
      simp [Phase.run, keep, joined_ne_nil hheader, Nat.add_comm 1]
    | cons marker later =>
      rw [hopened] at hbody
      have hlast : 1 + ls.length + header.length + body.length - 1 =
          ls.length + (header.length + body.length) := by
        omega
      simp only [Phase.run_filled hbody, hlast]
      simp [Nat.add_comm 1]

theorem Division.ofLines_eq (h : Division escape ls ss) : ofLines escape ls = .ok ss := by
  rw [ofLines_eq_ok]
  cases h with
  | whole h => exact ⟨[], by rw [h.run_eq]; rfl, by rw [h.run_eq, List.append_nil]⟩
  | @leftOpen ls header ss h hstart hopen =>
    have hlast : 1 + ls.length + header.length - 1 = ls.length + header.length := by omega
    rw [Phase.run_append, h.run_eq, Phase.run_goesOn hstart hopen, hlast, Nat.add_comm 1,
      List.append_nil, Phase.finish, joinPieces_reverse_lineTexts]
    exact ⟨_, rfl, rfl⟩

theorem UnterminatedAt.ofLines_eq (h : UnterminatedAt escape marker ls n) :
    ofLines escape ls = .error (.openHeredoc n marker.word) := by
  obtain ⟨h, hstart, hheader, hmarker⟩ := h
  rw [ofLines_eq_error, Phase.run_append, h.run_eq, Phase.run_append,
    Phase.run_header hstart hheader, Phase.close]
  cases hopened : openedBy (joined escape _) with
  | nil =>
    rw [hopened] at hmarker
    cases hmarker
  | cons first later =>
    rw [hopened] at hmarker
    obtain ⟨later', body', hrun⟩ := Phase.run_unterminated hmarker
    exact ⟨_, _, marker, later', body', hrun, by rw [Nat.add_comm]⟩

/-- The lines hold the statements into which they are divided. -/
theorem ofLines_eq_ok_iff_division : ofLines escape ls = .ok ss ↔ Division escape ls ss := by
  refine ⟨fun h => ?_, Division.ofLines_eq⟩
  rcases division_or_unterminatedAt escape ls with ⟨ts, hts⟩ | ⟨marker, n, hmarker⟩
  · rw [hts.ofLines_eq] at h
    cases h
    exact hts
  · rw [hmarker.ofLines_eq] at h
    cases h

/-- The first statement with a heredoc that has no terminator is the only one that is reported. -/
theorem ofLines_eq_error_iff_unterminatedAt {e : Error} :
    ofLines escape ls = .error e ↔
      ∃ marker n, UnterminatedAt escape marker ls n ∧ e = .openHeredoc n marker.word := by
  constructor
  · intro h
    rcases division_or_unterminatedAt escape ls with ⟨ss, hss⟩ | ⟨marker, n, hmarker⟩
    · rw [hss.ofLines_eq] at h
      cases h
    · rw [hmarker.ofLines_eq] at h
      cases h
      exact ⟨marker, n, hmarker, rfl⟩
  · rintro ⟨marker, n, hmarker, rfl⟩
    exact hmarker.ofLines_eq

end Dockerfile.Statement
