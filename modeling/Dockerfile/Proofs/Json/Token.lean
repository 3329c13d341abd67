import Dockerfile.Json.Writer
import Dockerfile.Json.Token

/-!
# Strings and tokens

A string that has been written is read back, whatever follows it. Texts without quotes, backslashes
and control characters are written as they are, and no other text can stand between quotes as it is.

* `Json.Quoted.scan_written`, `Json.Quoted.assemble_written`: a string is read back.
* `Json.Verbatim`: the texts that are written as they are.
* `Json.Quoted.verbatim_of_scan`: only such texts are as long as they are written.
* `Json.Token.lex_cons`, `Json.Token.lex_blank`: the first token of a text.
-/

namespace Dockerfile.Json

/-! ## Verbatim texts -/

/-- The text can stand between quotes as it is: it has no double quote, no backslash and no
character below U+0020. -/
def Verbatim (t : Text) : Prop := ∀ c ∈ t, c ≠ '"' ∧ c ≠ '\\' ∧ 0x20 ≤ c.toNat

instance (t : Text) : Decidable (Verbatim t) :=
  haveI : DecidablePred fun c : Char => c ≠ '"' ∧ c ≠ '\\' ∧ 0x20 ≤ c.toNat :=
    fun _ => inferInstance
  List.decidableBAll _ t

theorem Verbatim.lineFeed_not_mem {t : Text} (h : Verbatim t) : '\n' ∉ t :=
  fun hmem => absurd (h _ hmem).2.2 (by decide)

theorem escapeChar_of_verbatim {c : Char} (h : c ≠ '"' ∧ c ≠ '\\' ∧ 0x20 ≤ c.toNat) :
    escapeChar c = [c] := by
  obtain ⟨hquote, hslash, hcontrol⟩ := h
  unfold escapeChar
  split
  case h_1 | h_2 => contradiction
  case h_8 => exact if_neg (by omega)
  all_goals exact absurd hcontrol (by decide)

/-- A verbatim text is written as it is. -/
theorem Verbatim.flatMap_escapeChar {t : Text} (h : Verbatim t) : t.flatMap escapeChar = t := by
  induction t with
  | nil => rfl
  | cons c t ih =>
    obtain ⟨hc, ht⟩ := List.forall_mem_cons.mp h
    rw [List.flatMap_cons, escapeChar_of_verbatim hc, ih ht]
    rfl

namespace Quoted

variable {t u after : Text} {ps : List Piece}

/-! ## Reading what is written -/

/-- The piece that a written character is read as. -/
def written (c : Char) : Piece :=
  if c.toNat < 0x20 ∧ c ≠ '\x08' ∧ c ≠ '\x0c' ∧ c ≠ '\n' ∧ c ≠ '\r' ∧ c ≠ '\t' then .unit c.toNat
  else .char c

/-- The four digits of a control character. -/
theorem hexUnit?_control : ∀ n < 0x20,
    hexUnit? '0' '0' (Nat.digitChar (n / 16)) (Nat.digitChar (n % 16)) = some n := by
  decide

theorem scan_char {c : Char} (h : c ≠ '"' ∧ c ≠ '\\' ∧ 0x20 ≤ c.toNat) (rest : Text) :
    scan (c :: rest) = withPiece (some (.char c)) (scan rest) := by
  obtain ⟨hquote, hslash, hcontrol⟩ := h
  have hraw : ¬(c = '\\' ∨ c.toNat < 0x20) := by simp [hslash, hcontrol]
  rw [scan, if_neg hraw]
  all_goals simp [hquote, hslash]

theorem scan_escapeChar (c : Char) (rest : Text) :
    scan (escapeChar c ++ rest) = withPiece (some (written c)) (scan rest) := by
  unfold escapeChar
  split
  case h_8 hquote hslash hb hf hn hr ht =>
    split
    next hcontrol =>
      have hwritten : written c = .unit c.toNat := if_pos ⟨hcontrol, hb, hf, hn, hr, ht⟩
      rw [hwritten]
      simp [scan, hexUnit?_control c.toNat hcontrol]
    next hcontrol =>
      have hwritten : written c = .char c := if_neg fun h => hcontrol h.1
      rw [hwritten]
      exact scan_char ⟨hquote, hslash, Nat.le_of_not_lt hcontrol⟩ rest
  all_goals simp [scan, unescape?, written]

theorem scan_written (t after : Text) :
    scan (t.flatMap escapeChar ++ '"' :: after) = some (t.map written, after) := by
  induction t with
  | nil => simp [scan]
  | cons c t ih => rw [List.flatMap_cons, List.append_assoc, scan_escapeChar, ih]; rfl

theorem assemble_char (c : Char) (ps : List Piece) :
    assemble (.char c :: ps) = (assemble ps).map (c :: ·) := rfl

/-- A unit that is no half of a surrogate pair. -/
theorem assemble_unit {n : Nat} (hn : n < 0xD800) (ps : List Piece) :
    assemble (.unit n :: ps) = (assemble ps).map (Char.ofNat n :: ·) := by
  have hhigh : isHigh n = false := by simp [isHigh]; omega
  have hlow : isLow n = false := by simp [isLow]; omega
  match ps with
  | [] => simp [assemble, hhigh, hlow]
  | .char c :: rest => simp [assemble, hhigh, hlow, Function.comp_def]
  | .unit m :: rest => simp [assemble, hhigh, hlow]

theorem assemble_written (t : Text) : assemble (t.map written) = some t := by
  induction t with
  | nil => rfl
  | cons c t ih =>
    rw [List.map_cons, written]
    split
    next h =>
      rw [assemble_unit (by omega), ih, Char.ofNat_toNat]
      rfl
    next =>
      rw [assemble_char, ih]
      rfl

/-! ## Lengths -/

/-- Each character has a piece of its own. -/
theorem length_le_of_assemble (h : assemble ps = some t) : t.length ≤ ps.length := by
  fun_induction assemble ps generalizing t with
  | case1 | case4 =>
    cases h
    exact Nat.le_refl _
  | case3 | case5 | case8 | case9 => cases h
  | case2 c rest ih | case6 n c rest hpair ih | case7 n m rest hhigh hlow ih
  | case10 n m rest hhigh hlow ih =>
    obtain ⟨u, hu, rfl⟩ := Option.map_eq_some_iff.mp h
    have := ih hu
    simp only [List.length_cons] at this ⊢
    omega

theorem length_le_of_scan (h : scan u = some (ps, after)) :
    ps.length + 1 + after.length ≤ u.length := by
  fun_induction scan u generalizing ps with
  | case1 => cases h
  | case2 rest =>
    obtain ⟨rfl, rfl⟩ := by simpa using h
    simp [Nat.add_comm]
  | case3 a b c d rest ih | case4 e rest _ ih | case5 c rest _ _ _ ih =>
    obtain ⟨-, qs, -, hs, rfl⟩ := withPiece_eq_some_iff.mp h
    have := ih hs
    simp only [List.length_cons]
    omega

/-- Only a verbatim text is as long as what it is read from. -/
theorem verbatim_of_scan (hscan : scan u = some (ps, after)) (ht : assemble ps = some t)
    (hlength : u.length ≤ t.length + 1 + after.length) : Verbatim t ∧ u = t ++ '"' :: after := by
  fun_induction scan u generalizing ps t with
  | case1 => cases hscan
  | case2 rest =>
    obtain ⟨rfl, rfl⟩ := by simpa using hscan
    cases ht
    exact ⟨by simp [Verbatim], rfl⟩
  | case3 a b c d rest ih | case4 e rest _ ih =>
    -- A piece that is spelt with a backslash is longer than its character.
    obtain ⟨p, qs, -, hs, rfl⟩ := withPiece_eq_some_iff.mp hscan
    have := length_le_of_scan hs
    have := length_le_of_assemble ht
    simp only [List.length_cons] at *
    omega
  | case5 c rest hquote hslash hunicode ih =>
    obtain ⟨p, qs, hp, hs, rfl⟩ := withPiece_eq_some_iff.mp hscan
    split at hp
    next => cases hp
    next hraw =>
      cases hp
      obtain ⟨u, hu, rfl⟩ := Option.map_eq_some_iff.mp ht
      obtain ⟨hverbatim, rfl⟩ := ih hs hu (by simp only [List.length_cons] at hlength; omega)
      simp only [not_or, Nat.not_lt] at hraw
      exact ⟨List.forall_mem_cons.mpr ⟨⟨hquote, hraw⟩, hverbatim⟩, rfl⟩

end Quoted

/-! ## Tokens -/

namespace Token

theorem lex_blank {c : Char} (h : isBlank c) (rest : Text) : lex (c :: rest) = lex rest := by
  rw [lex, if_pos h]

theorem lex_cons {c : Char} (h : isBlank c = false) (rest : Text) :
    lex (c :: rest) = (next? c rest).bind fun p => (lex p.2).map (p.1 :: ·) := by
  rw [lex, if_neg (by simp [h])]
  split <;> simp [*]

/-- A token of one character. -/
theorem lex_symbol {c : Char} {token : Token} (h : isBlank c = false)
    (hnext : ∀ rest, next? c rest = some (token, rest)) (rest : Text) :
    lex (c :: rest) = (lex rest).map (token :: ·) := by
  rw [lex_cons h, hnext]
  rfl

end Token

end Dockerfile.Json
