import Dockerfile.Document.Basic
import Dockerfile.Proofs.Directive
import Dockerfile.Proofs.Statement.Move

/-!
# When a text is read

* `Statement.toInstruction`: the instruction in a statement whose first word is a keyword.
* `Statement.instructions_eq_ok`: statements are taken apart one by one.
* `Statement.FaultyAt`, `Statement.instructions_eq_error_iff`: the first statement without a keyword
  fails.
* `Reader.byLines_eq_ok`, `Document.parse_eq_ok`: the texts that are read, and the instructions
  found in them.
* `Reader.byLines_eq_error_iff`, `Document.parse_eq_error`: the other texts are malformed.
-/

namespace Dockerfile

namespace Statement

/-- The instruction in a statement, if its first word is a keyword. -/
def toInstruction (s : Statement) : Instruction :=
  { name := s.name, flags := s.flags, values := s.values, first := s.first, last := s.last,
    source := s.source }

theorem instruction_eq_ok {s : Statement} {i : Instruction} :
    s.instruction = .ok i ↔ Text.isAlphanum s.name ∧ i = s.toInstruction := by
  unfold instruction
  split
  · rename_i hname
    constructor
    · intro h
      cases h
      exact ⟨hname, rfl⟩
    · rintro ⟨-, rfl⟩
      rfl
  · rename_i hname
    constructor
    · intro h
      cases h
    · rintro ⟨h, -⟩
      exact absurd h hname

theorem instruction_eq_error {s : Statement} {e : Error} :
    s.instruction = .error e ↔ Text.isAlphanum s.name = false ∧ e = .badKeyword s.first s.name := by
  unfold instruction
  split
  · next hname => simp [hname]
  · next hname => simp [hname, eq_comm]

/-- The first of the statements that does not start with a keyword fails. -/
def FaultyAt (ss : List Statement) (s : Statement) : Prop :=
  ∃ before after, ss = before ++ s :: after ∧ (∀ t ∈ before, Text.isAlphanum t.name) ∧
    Text.isAlphanum s.name = false

theorem instructions_eq_error_iff {ss : List Statement} {e : Error} :
    (instructions ss).value = .error e ↔
      ∃ s, FaultyAt ss s ∧ e = .badKeyword s.first s.name := by
  induction ss with
  | nil =>
    constructor
    · intro h
      cases h
    · rintro ⟨s, ⟨before, after, h, -⟩, -⟩
      simp at h
  | cons s rest ih =>
    unfold instructions
    cases hs : s.instruction with
    | error e' =>
      obtain ⟨hname, rfl⟩ := instruction_eq_error.mp hs
      constructor
      · intro h
        cases h
        exact ⟨s, ⟨[], rest, rfl, by simp, hname⟩, rfl⟩
      · rintro ⟨t, ⟨before, after, hcut, hbefore, ht⟩, rfl⟩
        rcases List.cons_eq_append_iff.mp hcut with ⟨-, hcut⟩ | ⟨before', rfl, -⟩
        · cases hcut
          rfl
        · rw [hbefore s List.mem_cons_self] at hname
          cases hname
    | ok i =>
      have hname := (instruction_eq_ok.mp hs).1
      have hmap : Except.map (i :: ·) (instructions rest).value = .error e ↔
          (instructions rest).value = .error e := by
        cases (instructions rest).value <;> simp [Except.map]
      refine hmap.trans (ih.trans ⟨?_, ?_⟩)
      · rintro ⟨t, ⟨before, after, rfl, hbefore, ht⟩, rfl⟩
        exact ⟨t, ⟨s :: before, after, rfl, List.forall_mem_cons.mpr ⟨hname, hbefore⟩, ht⟩, rfl⟩
      · rintro ⟨t, ⟨before, after, hcut, hbefore, ht⟩, rfl⟩
        rcases List.cons_eq_append_iff.mp hcut with ⟨-, hcut⟩ | ⟨before', rfl, rfl⟩
        · cases hcut
          rw [hname] at ht
          cases ht
        · exact ⟨t, ⟨before', after, rfl, (List.forall_mem_cons.mp hbefore).2, ht⟩, rfl⟩

theorem instructions_eq_ok {ss : List Statement} {is : List Instruction} :
    (instructions ss).value = .ok is ↔
      (∀ s ∈ ss, Text.isAlphanum s.name) ∧ is = ss.map toInstruction := by
  induction ss generalizing is with
  | nil =>
    constructor
    · intro h
      cases h
      exact ⟨by simp, rfl⟩
    · rintro ⟨-, rfl⟩
      rfl
  | cons s rest ih =>
    unfold instructions
    cases hs : s.instruction with
    | error e =>
      constructor
      · intro h
        cases h
      · rintro ⟨hnames, -⟩
        rw [instruction_eq_ok.mpr ⟨hnames s List.mem_cons_self, rfl⟩] at hs
        cases hs
    | ok i =>
      obtain ⟨hname, rfl⟩ := instruction_eq_ok.mp hs
      show Except.map (s.toInstruction :: ·) (instructions rest).value = .ok is ↔ _
      cases hrest : (instructions rest).value with
      | error e =>
        constructor
        · intro h
          cases h
        · rintro ⟨hnames, -⟩
          rw [ih.mpr ⟨fun t ht => hnames t (List.mem_cons_of_mem _ ht), rfl⟩] at hrest
          cases hrest
      | ok js =>
        obtain ⟨hnames, rfl⟩ := ih.mp hrest
        constructor
        · intro h
          cases h
          exact ⟨List.forall_mem_cons.mpr ⟨hname, hnames⟩, rfl⟩
        · rintro ⟨-, rfl⟩
          rfl

end Statement

namespace Reader

variable {options : ReadOptions} {text : Text}

/-- What is made of the statements of a text. -/
theorem byLines_of_ofLines {escape : Char} {ss : List Statement}
    (hescape : Escape.effective options.escape (Text.lines text) = .ok escape)
    (hss : Statement.ofLines escape (Text.lines text) = .ok ss) :
    (byLines options text).value = match (Statement.instructions ss).value with
      | .ok [] => .error (.noInstructions (Text.lines text).length)
      | result => result := by
  simp only [byLines, hescape, hss, bind, Except.bind, pure, Except.pure]
  rcases (Statement.instructions ss).value with e | (_ | ⟨i, is⟩) <;> rfl

/-- A text is read if its directives and heredocs are sound, it has a statement, and every statement
starts with a keyword. -/
theorem byLines_eq_ok {is : List Instruction} :
    (byLines options text).value = .ok is ↔
      ∃ escape ss, Escape.effective options.escape (Text.lines text) = .ok escape ∧
        Statement.ofLines escape (Text.lines text) = .ok ss ∧ ss ≠ [] ∧
        (∀ s ∈ ss, Text.isAlphanum s.name) ∧ is = ss.map Statement.toInstruction := by
  constructor
  · intro h
    cases hescape : Escape.effective options.escape (Text.lines text) with
    | error e => simp [byLines, bind, Except.bind, hescape] at h
    | ok escape =>
      cases hss : Statement.ofLines escape (Text.lines text) with
      | error e => simp [byLines, bind, Except.bind, hescape, hss] at h
      | ok ss =>
        rw [byLines_of_ofLines hescape hss] at h
        have his : (Statement.instructions ss).value = .ok is ∧ is ≠ [] := by
          split at h
          · cases h
          · rename_i hne
            refine ⟨h, ?_⟩
            rintro rfl
            exact hne h
        obtain ⟨hnames, rfl⟩ := Statement.instructions_eq_ok.mp his.1
        exact ⟨escape, ss, rfl, hss, by simpa using his.2, hnames, rfl⟩
  · rintro ⟨escape, ss, hescape, hss, hne, hnames, rfl⟩
    rw [byLines_of_ofLines hescape hss, Statement.instructions_eq_ok.mpr ⟨hnames, rfl⟩]
    cases ss with
    | nil => contradiction
    | cons s ss => rfl

/-- A text is not read if a directive is faulty, else if a heredoc has no terminator, else if a
statement starts with no keyword, else if it has no statement. -/
theorem byLines_eq_error_iff {e : Error} :
    (byLines options text).value = .error e ↔
      Escape.effective options.escape (Text.lines text) = .error e ∨
      ∃ escape, Escape.effective options.escape (Text.lines text) = .ok escape ∧
        (Statement.ofLines escape (Text.lines text) = .error e ∨
        ∃ ss, Statement.ofLines escape (Text.lines text) = .ok ss ∧
          ((Statement.instructions ss).value = .error e ∨
          ss = [] ∧ e = .noInstructions (Text.lines text).length)) := by
  cases hescape : Escape.effective options.escape (Text.lines text) with
  | error e' => simp [byLines, bind, Except.bind, hescape]
  | ok escape =>
    cases hss : Statement.ofLines escape (Text.lines text) with
    | error e' => simp [byLines, bind, Except.bind, hescape, hss]
    | ok ss =>
      rw [byLines_of_ofLines hescape hss]
      cases his : (Statement.instructions ss).value with
      | error e' =>
        have hne : ss ≠ [] := by
          rintro rfl
          cases his
        simp [hss, his, hne]
      | ok is =>
        obtain ⟨-, rfl⟩ := Statement.instructions_eq_ok.mp his
        cases ss with
        | nil => simp [hss, Statement.instructions, eq_comm]
        | cons s ss => simp [hss, his]

/-- A text that is not read is malformed. -/
theorem byLines_eq_error {e : Error} (h : (byLines options text).value = .error e) :
    ∃ line detail, e = .malformed line detail := by
  rcases byLines_eq_error_iff.mp h with hdirective | ⟨escape, -, hheredoc | ⟨ss, -, hss⟩⟩
  · obtain ⟨line, value, -, rfl⟩ := Escape.effective_eq_error_iff.mp hdirective
    exact ⟨line, _, rfl⟩
  · obtain ⟨_, first, marker, _, _, -, rfl⟩ := Statement.ofLines_eq_error.mp hheredoc
    exact ⟨first, _, rfl⟩
  · rcases hss with hkeyword | ⟨-, rfl⟩
    · obtain ⟨s, -, rfl⟩ := Statement.instructions_eq_error_iff.mp hkeyword
      exact ⟨s.first, _, rfl⟩
    · exact ⟨_, _, rfl⟩

end Reader

namespace Document

theorem parse_of_byLines {text : Text} {is : List Instruction}
    (h : (Reader.byLines {} text).value = .ok is) :
    (parse text).value = .ok { instructions := is } :=
  congrArg (Except.map Document.mk) h

theorem parse_eq_ok {text : Text} {d : Document} :
    (parse text).value = .ok d ↔
      ∃ escape ss, Escape.effective defaultEscape (Text.lines text) = .ok escape ∧
        Statement.ofLines escape (Text.lines text) = .ok ss ∧ ss ≠ [] ∧
        (∀ s ∈ ss, Text.isAlphanum s.name) ∧ d.instructions = ss.map Statement.toInstruction := by
  have hread : (Reader.byLines {} text).value = .ok d.instructions ↔ _ := Reader.byLines_eq_ok
  rw [← hread]
  show Except.map Document.mk (Reader.byLines {} text).value = .ok d ↔ _
  cases (Reader.byLines {} text).value with
  | error e => simp [Except.map]
  | ok is =>
    constructor
    · intro h
      cases h
      rfl
    · intro h
      cases h
      rfl

theorem parse_eq_error {text : Text} {e : Error} (h : (parse text).value = .error e) :
    ∃ line detail, e = .malformed line detail := by
  have hmap : Except.map Document.mk (Reader.byLines {} text).value = .error e := h
  cases hread : (Reader.byLines {} text).value with
  | error e' =>
    rw [hread] at hmap
    cases hmap
    exact Reader.byLines_eq_error hread
  | ok is =>
    rw [hread] at hmap
    cases hmap

end Document

end Dockerfile
