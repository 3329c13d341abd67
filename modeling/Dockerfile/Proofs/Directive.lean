import Dockerfile.Escape
import Dockerfile.Proofs.Text.Trim

/-!
# Directives

* `Escape.Undirected`, `Escape.effective_of_undirected`: the lines without an escape directive among
  their leading directives keep the escape character.
* `Escape.FaultyAt`, `Escape.effective_eq_error_iff`: only the first directive that selects no valid
  escape character is an error.
* `Escape.isValid_of_effective`: directives select a backslash or a backquote only.
* `Escape.effective_congr`: lines count by their trimmed texts.
* `Directive.ofLine?_of_trimmed`: a trimmed line that does not start a comment is no directive.
-/

namespace Dockerfile

open Text

theorem Directive.ofLine?_of_trimmed {line : Text} (ht : Trimmed line) (hline : '#' ∉ line.head?) :
    ofLine? line = none := by
  rw [ofLine?, ht.trim_eq]
  split
  · simp at hline
  · rfl

/-- A line counts by its trimmed text. -/
theorem Directive.ofLine?_congr {l line : Text} (h : trim l = trim line) :
    ofLine? l = ofLine? line := by
  simp only [ofLine?, h]

/-- The directive selects an escape character, but none that is valid. -/
def Directive.Faulty (d : Directive) : Prop :=
  d.isEscape ∧ d.value ≠ ['\\'] ∧ d.value ≠ ['\x60']

namespace Escape

variable {lines more : List Text} {escape : Char} {n : Nat}

theorem isAlphanum_of_isValid (h : isValid escape) : escape.isAlphanum = false := by
  rcases (by simpa [isValid] using h : escape = '\\' ∨ escape = '\x60') with rfl | rfl <;> decide

theorem isValid_of_ofValue? {value : Text} {c : Char} (h : ofValue? value = some c) :
    isValid c := by
  unfold ofValue? at h
  split at h
  · split at h
    · next hvalid =>
      cases h
      exact hvalid
    · cases h
  · cases h

/-- Only the directives on the lines count. -/
theorem effectiveFrom_congr (h : lines.map Directive.ofLine? = more.map Directive.ofLine?) :
    effectiveFrom escape n lines = effectiveFrom escape n more := by
  induction lines generalizing more escape n with
  | nil => rw [List.map_eq_nil_iff.mp h.symm]
  | cons line lines ih =>
    obtain ⟨line', more, rfl, hline, hmore⟩ := List.map_eq_cons_iff.mp h.symm
    simp only [effectiveFrom, hline, ih hmore.symm]

theorem effective_congr (h : lines.map trim = more.map trim) :
    effective escape lines = effective escape more := by
  have hmap (ls : List Text) : ls.map Directive.ofLine? = (ls.map trim).map Directive.ofLine? := by
    rw [List.map_map]
    exact List.map_congr_left fun l _ => (Directive.ofLine?_congr (trimmed_trim l).trim_eq).symm
  exact effectiveFrom_congr (by rw [hmap, h, ← hmap])

/-- Directives select valid escape characters only. -/
theorem isValid_of_effectiveFrom {c : Char} (hescape : isValid escape)
    (h : effectiveFrom escape n lines = .ok c) : isValid c := by
  induction lines generalizing escape n with
  | nil =>
    cases h
    exact hescape
  | cons line lines ih =>
    unfold effectiveFrom at h
    split at h
    · cases h
      exact hescape
    · split at h
      · split at h
        · cases h
        · next d _ hvalue => exact ih (isValid_of_ofValue? hvalue) h
      · exact ih hescape h

theorem isValid_of_effective {c : Char} (hescape : isValid escape)
    (h : effective escape lines = .ok c) : isValid c :=
  isValid_of_effectiveFrom hescape h

/-- Only a value that is no valid escape character selects none. -/
theorem ofValue?_eq_none_iff {value : Text} :
    ofValue? value = none ↔ value ≠ ['\\'] ∧ value ≠ ['\x60'] := by
  match value with
  | [] => simp [ofValue?]
  | [c] => by_cases hc : c = '\\' <;> simp [ofValue?, isValid, hc]
  | c :: d :: value => simp [ofValue?]

/-- Among the leading directives the one at line `n`, with this value, is the first that selects no
escape character. -/
def FaultyAt (lines : List Text) (n : Nat) (value : Text) : Prop :=
  ∃ above line below d, lines = above ++ line :: below ∧
    (∀ l ∈ above, ∃ d, Directive.ofLine? l = some d ∧ ¬ d.Faulty) ∧
    Directive.ofLine? line = some d ∧ d.Faulty ∧ value = d.value ∧ n = above.length + 1

variable {line value : Text} {d : Directive}

theorem not_faultyAt_nil : ¬ FaultyAt [] n value := by
  rintro ⟨above, line, below, d, h, -⟩
  simp at h

/-- Directives end at the first line that is none. -/
theorem not_faultyAt_cons (hline : Directive.ofLine? line = none) :
    ¬ FaultyAt (line :: lines) n value := by
  rintro ⟨above, l, below, d, h, habove, hl, -⟩
  rcases List.cons_eq_append_iff.mp h with ⟨-, hcut⟩ | ⟨above', rfl, -⟩
  · cases hcut
    rw [hline] at hl
    cases hl
  · obtain ⟨d', hd', -⟩ := habove line List.mem_cons_self
    rw [hline] at hd'
    cases hd'

theorem faultyAt_cons_of_faulty (hline : Directive.ofLine? line = some d) (hd : d.Faulty) :
    FaultyAt (line :: lines) n value ↔ n = 1 ∧ value = d.value := by
  constructor
  · rintro ⟨above, l, below, d', h, habove, hl, -, rfl, rfl⟩
    rcases List.cons_eq_append_iff.mp h with ⟨rfl, hcut⟩ | ⟨above', rfl, -⟩
    · cases hcut
      rw [hline] at hl
      cases hl
      exact ⟨rfl, rfl⟩
    · obtain ⟨d', hd', hsound⟩ := habove line List.mem_cons_self
      rw [hline] at hd'
      cases hd'
      exact absurd hd hsound
  · rintro ⟨rfl, rfl⟩
    exact ⟨[], line, lines, d, rfl, by simp, hline, hd, rfl, rfl⟩

theorem faultyAt_cons_of_sound (hline : Directive.ofLine? line = some d) (hd : ¬ d.Faulty) :
    FaultyAt (line :: lines) (n + 1) value ↔ FaultyAt lines n value := by
  constructor
  · rintro ⟨above, l, below, d', h, habove, hl, hfaulty, rfl, hn⟩
    rcases List.cons_eq_append_iff.mp h with ⟨-, hcut⟩ | ⟨above', rfl, rfl⟩
    · cases hcut
      rw [hline] at hl
      cases hl
      exact absurd hfaulty hd
    · exact ⟨above', l, below, d', rfl, (List.forall_mem_cons.mp habove).2, hl, hfaulty, rfl,
        Nat.succ.inj hn⟩
  · rintro ⟨above, l, below, d', rfl, habove, hl, hfaulty, rfl, rfl⟩
    exact ⟨line :: above, l, below, d', rfl, List.forall_mem_cons.mpr ⟨⟨d, hline, hd⟩, habove⟩, hl,
      hfaulty, rfl, rfl⟩

theorem one_le_of_faultyAt (h : FaultyAt lines n value) : 1 ≤ n := by
  obtain ⟨above, line, below, d, -, -, -, -, -, rfl⟩ := h
  exact Nat.le_add_left 1 _

/-- Only the first directive that selects no escape character is an error. -/
theorem effectiveFrom_eq_error_iff {e : Error} :
    effectiveFrom escape n lines = .error e ↔
      ∃ k value, FaultyAt lines (k + 1) value ∧ e = .badEscape (n + k) value := by
  induction lines generalizing escape n with
  | nil => simp [effectiveFrom, not_faultyAt_nil]
  | cons line lines ih =>
    rw [effectiveFrom]
    cases hline : Directive.ofLine? line with
    | none => simp [not_faultyAt_cons hline]
    | some d =>
      have hsound (hd : ¬ d.Faulty) (c : Char) :
          effectiveFrom c (n + 1) lines = .error e ↔
            ∃ k value, FaultyAt (line :: lines) (k + 1) value ∧ e = .badEscape (n + k) value := by
        rw [ih]
        constructor
        · rintro ⟨k, value, hk, rfl⟩
          exact ⟨k + 1, value, (faultyAt_cons_of_sound hline hd).mpr hk, by
            rw [Nat.add_right_comm, Nat.add_assoc]⟩
        · rintro ⟨k, value, hk, rfl⟩
          have hk := (faultyAt_cons_of_sound hline hd).mp hk
          obtain ⟨k, rfl⟩ := Nat.exists_eq_add_of_le' (one_le_of_faultyAt hk)
          exact ⟨k, value, hk, by rw [Nat.add_right_comm, Nat.add_assoc]⟩
      cases hescape : d.isEscape with
      | false => simpa [hescape] using hsound (by simp [Directive.Faulty, hescape]) escape
      | true =>
        cases hvalue : ofValue? d.value with
        | none =>
          have hd : d.Faulty := ⟨hescape, ofValue?_eq_none_iff.mp hvalue⟩
          simp only [hescape, hvalue, if_true, faultyAt_cons_of_faulty hline hd]
          constructor
          · intro h
            cases h
            exact ⟨0, _, ⟨rfl, rfl⟩, rfl⟩
          · rintro ⟨k, value, ⟨hk, rfl⟩, rfl⟩
            cases hk
            rfl
        | some c =>
          have hd : ¬ d.Faulty := fun h => by
            rw [ofValue?_eq_none_iff.mpr h.2] at hvalue
            cases hvalue
          simpa [hescape, hvalue] using hsound hd c

theorem effective_eq_error_iff {e : Error} :
    effective escape lines = .error e ↔
      ∃ n value, FaultyAt lines n value ∧ e = .badEscape n value := by
  rw [effective, effectiveFrom_eq_error_iff]
  constructor
  · rintro ⟨k, value, hk, rfl⟩
    exact ⟨k + 1, value, hk, by rw [Nat.add_comm]⟩
  · rintro ⟨n, value, hn, rfl⟩
    obtain ⟨k, rfl⟩ := Nat.exists_eq_add_of_le' (one_le_of_faultyAt hn)
    exact ⟨k, value, hn, by rw [Nat.add_comm]⟩

/-- None of the leading directives selects an escape character. -/
def Undirected (lines : List Text) : Prop :=
  ∀ line ∈ lines.takeWhile (fun line => (Directive.ofLine? line).isSome),
    ∀ d ∈ Directive.ofLine? line, d.isEscape = false

instance : Decidable (Undirected lines) :=
  inferInstanceAs (Decidable
    (∀ line ∈ lines.takeWhile (fun line => (Directive.ofLine? line).isSome),
      ∀ d ∈ Directive.ofLine? line, d.isEscape = false))

theorem undirected_of_head? (h : ∀ line ∈ lines.head?, Directive.ofLine? line = none) :
    Undirected lines := by
  cases lines with
  | nil => simp [Undirected]
  | cons line lines => simp [Undirected, h line rfl]

theorem effectiveFrom_of_undirected (h : Undirected lines) :
    effectiveFrom escape n lines = .ok escape := by
  induction lines generalizing n with
  | nil => rfl
  | cons line lines ih =>
    rw [effectiveFrom]
    cases hd : Directive.ofLine? line with
    | none => rfl
    | some d =>
      have htake : (line :: lines).takeWhile (fun line => (Directive.ofLine? line).isSome) =
          line :: lines.takeWhile (fun line => (Directive.ofLine? line).isSome) := by
        simp [hd]
      rw [Undirected, htake] at h
      obtain ⟨hline, hlines⟩ := List.forall_mem_cons.mp h
      simp only [hline d hd, Bool.false_eq_true, if_false]
      exact ih hlines

theorem effective_of_undirected (h : Undirected lines) : effective escape lines = .ok escape :=
  effectiveFrom_of_undirected h

end Escape

end Dockerfile
