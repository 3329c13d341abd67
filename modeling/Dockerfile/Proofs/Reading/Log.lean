import Dockerfile.Proofs.Reading
import Dockerfile.Proofs.Statement.Division

/-!
# What is logged while a text is read

The log tells of unknown instructions and of entry points whose brackets hold no array, in the order
of the statements and up to the first one without a keyword. A text that is read to its end is
reported last.

* `Event.Entry`, `Event.entry`: an event with its level, wording and fields.
* `Statement.Logs`, `Statement.logs_notices`: the entries of one statement, at most one.
* `Statement.events_instructions`, `Reader.events_byLines`: the entries of all statements.
* `Reader.byLines_logs`: the log of a text.
-/

namespace Dockerfile

open Text

/-- An event as it stands in the log. -/
structure Event.Entry where
  level : Level
  message : String
  fields : List (String × Event.Field)

/-- The entry of an event. -/
def Event.entry (e : Event) : Entry := ⟨e.level, e.message, e.fields⟩

/-! ## One statement -/

namespace Statement

/-- The entries of a statement: a warning about an unknown instruction, a remark on an entry point
in brackets that is no array of strings, and nothing about other statements. -/
inductive Logs (s : Statement) : List Event.Entry → Prop
  | unknown : (∀ k : Keyword, ¬ k.spelledBy s.name) →
      Logs s [⟨.warn, "Unknown Dockerfile instruction, keeping as-is",
        [("line", .number s.first), ("instruction", .text s.name)]⟩]
  | entrypoint {rest : Text} : Keyword.entrypoint.spelledBy s.name → s.rest = '[' :: rest →
      (∀ texts, Json.parseTexts s.rest ≠ some texts) →
      Logs s [⟨.debug, "ENTRYPOINT is not a JSON array, using shell form",
        [("line", .number s.first)]⟩]
  | other {k : Keyword} : k.spelledBy s.name →
      (k = .entrypoint → s.rest.head? = some '[' → ∃ texts, Json.parseTexts s.rest = some texts) →
      Logs s []

theorem spelledBy_of_keyword? {s : Statement} {k : Keyword} (h : s.keyword? = some k) :
    k.spelledBy s.name :=
  List.find?_some (p := (Keyword.spelledBy · s.name)) h

theorem not_spelledBy_of_keyword? {s : Statement} (h : s.keyword? = none) (k : Keyword) :
    ¬ k.spelledBy s.name :=
  List.find?_eq_none.mp h k (Keyword.mem_all k)

theorem logs_notices (s : Statement) : s.Logs (s.notices.map Event.entry) := by
  cases hkeyword : s.keyword? with
  | none =>
    have hnotices : s.notices = [.unknownInstruction s.first s.name] := by
      simp [notices, isBracketed, hkeyword]
    rw [hnotices]
    exact .unknown (not_spelledBy_of_keyword? hkeyword)
  | some k =>
    have hspelled := spelledBy_of_keyword? hkeyword
    by_cases h : s.isBracketed ∧ Json.parseTexts s.rest = none
    · have hnotices : s.notices = [.shellEntrypoint s.first] := by
        simp [notices, hkeyword, h]
      obtain ⟨hbracketed, htexts⟩ := h
      obtain ⟨hentrypoint, hhead⟩ := of_decide_eq_true hbracketed
      obtain ⟨rest, hrest⟩ := List.head?_eq_some_iff.mp hhead
      rw [hnotices]
      exact .entrypoint (spelledBy_of_keyword? hentrypoint) hrest (by simp [htexts])
    · have hnotices : s.notices = [] := by
        simp [notices, hkeyword, h]
      rw [hnotices]
      refine .other hspelled fun hk hhead => Option.ne_none_iff_exists'.mp fun htexts => ?_
      exact h ⟨by simp [isBracketed, hkeyword, hk, hhead], htexts⟩

/-- No statement is reported as a whole text is. -/
theorem Logs.message_ne {s : Statement} {entries : List Event.Entry} (h : s.Logs entries) :
    ∀ entry ∈ entries, entry.message ≠ "Parsed Dockerfile" := by
  cases h with
  | unknown _ => simp
  | entrypoint _ _ _ => simp
  | other _ _ => simp

/-- The statements are reported in order, up to the first one without a keyword. -/
theorem events_instructions (ss : List Statement) :
    (instructions ss).events = (ss.takeWhile (isAlphanum ·.name)).flatMap notices := by
  induction ss with
  | nil => rfl
  | cons s rest ih =>
    unfold instructions
    cases hs : s.instruction with
    | error e =>
      obtain ⟨hname, -⟩ := instruction_eq_error.mp hs
      simp [hname]
    | ok i =>
      obtain ⟨hname, -⟩ := instruction_eq_ok.mp hs
      simp [hname, ih]

theorem exists_logs (ss : List Statement) :
    ∃ entries, List.Forall₂ Logs ss entries ∧
      (∀ entry ∈ entries.flatten, entry.message ≠ "Parsed Dockerfile") ∧
      (ss.flatMap notices).map Event.entry = entries.flatten := by
  refine ⟨ss.map fun s => s.notices.map Event.entry, ?_, fun entry hentry => ?_, ?_⟩
  · exact List.forall₂_map_right_iff.mpr (List.forall₂_same.mpr fun s _ => logs_notices s)
  · obtain ⟨_, hentries, hentry⟩ := List.mem_flatten.mp hentry
    obtain ⟨s, -, rfl⟩ := List.mem_map.mp hentries
    exact (logs_notices s).message_ne entry hentry
  · rw [List.map_flatMap, List.flatMap_def]

end Statement

/-! ## All statements -/

namespace Reader

open Statement

variable {options : ReadOptions} {text : Text} {escape c : Char} {ls : List Text}

/-- The lines are not divided into statements: a directive selects no escape character, or else a
heredoc has no terminator. -/
def Undivided (escape : Char) (ls : List Text) : Prop :=
  (∃ n value, Escape.FaultyAt ls n value) ∨
    ∃ c marker n, Escape.effective escape ls = .ok c ∧ UnterminatedAt c marker ls n

theorem events_of_undivided (h : Undivided options.escape (lines text)) :
    (byLines options text).events = [] := by
  rcases h with ⟨n, value, h⟩ | ⟨c, marker, n, hescape, h⟩
  · have hescape : Escape.effective options.escape (lines text) = .error (.badEscape n value) :=
      Escape.effective_eq_error_iff.mpr ⟨n, value, h, rfl⟩
    simp [byLines, bind, Except.bind, hescape]
  · simp [byLines, bind, Except.bind, hescape, h.ofLines_eq]

theorem exists_division (h : ¬ Undivided escape ls) :
    ∃ c ss, Escape.effective escape ls = .ok c ∧ Division c ls ss := by
  obtain ⟨hdirective, hheredoc⟩ := not_or.mp h
  cases hescape : Escape.effective escape ls with
  | error e =>
    obtain ⟨n, value, hfault, -⟩ := Escape.effective_eq_error_iff.mp hescape
    exact absurd ⟨n, value, hfault⟩ hdirective
  | ok c =>
    rcases division_or_unterminatedAt c ls with ⟨ss, hss⟩ | ⟨marker, n, hopen⟩
    · exact ⟨c, ss, rfl, hss⟩
    · exact absurd ⟨c, marker, n, hescape, hopen⟩ hheredoc

theorem events_byLines {ss : List Statement}
    (hescape : Escape.effective options.escape (lines text) = .ok c)
    (hss : ofLines c (lines text) = .ok ss) :
    (byLines options text).events = (instructions ss).events ++
      match (byLines options text).value with
      | .ok is => [.parsed is.length (lines text).length c]
      | .error _ => [] := by
  simp only [byLines, hescape, hss, bind, Except.bind, pure, Except.pure]
  rcases (instructions ss).value with e | (_ | ⟨i, is⟩) <;> rfl

theorem events_retag_of_error {d : Document} {tag : Text} {e : Error}
    (h : (d.retag tag).value = .error e) : (d.retag tag).events = [] := by
  unfold Document.retag at h ⊢
  simp only [bind, Except.bind] at h ⊢
  split at h
  · rfl
  · cases h

/-- Nothing is logged about a text that is not divided into statements. Otherwise the statements are
reported up to the first one without a keyword, and a text that is read is reported last. A tag
that cannot be set is not logged. -/
theorem byLines_logs (options : ReadOptions) (text : Text) :
    (Undivided options.escape (lines text) → (byLines options text).events = []) ∧
    (¬ Undivided options.escape (lines text) →
      ∃ c ss entries, Escape.effective options.escape (lines text) = .ok c ∧
        Division c (lines text) ss ∧
        List.Forall₂ Logs (ss.takeWhile (isAlphanum ·.name)) entries ∧
        (∀ entry ∈ entries.flatten, entry.message ≠ "Parsed Dockerfile") ∧
        (∀ e, (byLines options text).value = .error e →
          (byLines options text).events.map Event.entry = entries.flatten) ∧
        ∀ is, (byLines options text).value = .ok is →
          (byLines options text).events.map Event.entry = entries.flatten ++
            [⟨.debug, "Parsed Dockerfile", [("instructions", .number is.length),
              ("lines", .number (lines text).length), ("escape", .text [c])]⟩]) ∧
    ∀ (d : Document) (tag : Text) (e : Error), (d.retag tag).value = .error e →
      (d.retag tag).events = [] := by
  refine ⟨events_of_undivided, fun h => ?_, fun d tag e => events_retag_of_error⟩
  obtain ⟨c, ss, hescape, hss⟩ := exists_division h
  obtain ⟨entries, hentries, hmessage, hflat⟩ := exists_logs (ss.takeWhile (isAlphanum ·.name))
  have hevents := events_byLines hescape (ofLines_eq_ok_iff_division.mpr hss)
  rw [events_instructions] at hevents
  refine ⟨c, ss, entries, hescape, hss, hentries, hmessage, fun e hvalue => ?_, fun is hvalue => ?_⟩
  · rw [hevents, hvalue, List.append_nil, hflat]
  · rw [hevents, hvalue, List.map_append, hflat]
    rfl

/-- A text with an unknown instruction, an entry point in brackets that are no array, and a line
without a keyword above another unknown instruction. -/
def warnedText : Text :=
  "from a
step \\
 b
entrypoint --quiet [sh
- c
step d
".toList

/-- The two statements above the line without a keyword are reported, and nothing else. -/
theorem byLines_logs_warnedText :
    (byLines {} warnedText).events = [.unknownInstruction 2 "step".toList, .shellEntrypoint 4] ∧
      ∃ c ss entries, Division c (lines warnedText) ss ∧
        List.Forall₂ Logs (ss.takeWhile (isAlphanum ·.name)) entries ∧
        (byLines {} warnedText).events.map Event.entry = entries.flatten := by
  have hevents : (byLines {} warnedText).events =
      [.unknownInstruction 2 "step".toList, .shellEntrypoint 4] := by decide +kernel
  have hvalue : (byLines {} warnedText).value = .error (.badKeyword 5 ['-']) := by decide +kernel
  obtain ⟨hsilent, hlog, -⟩ := byLines_logs {} warnedText
  obtain ⟨c, ss, entries, -, hss, hentries, -, herror, -⟩ := hlog fun h => by
    rw [hsilent h] at hevents
    cases hevents
  exact ⟨hevents, c, ss, entries, hss, hentries, herror _ hvalue⟩

end Reader

end Dockerfile
