import Dockerfile.Json.Value

/-!
# JSON tokens

A strict lexer: blanks are space, tab, line feed and carriage return; a string holds no raw
character below U+0020; numbers have no leading zero or plus sign.

* `Json.Token`: brackets, separators and scalars.
* `Json.Quoted.scan`, `Json.Number.scan`: the rest of a string, and a number.
* `Json.Token.lex`: the tokens of a text.
-/

namespace Dockerfile.Json

/-! ## Strings -/

namespace Quoted

/-- What a string is written with: characters, and UTF-16 units in hexadecimal. -/
inductive Piece where
  | char (c : Char)
  | unit (n : Nat)
deriving DecidableEq, Repr

/-- The unit opens a surrogate pair. -/
def isHigh (n : Nat) : Bool := 0xD800 ≤ n && n ≤ 0xDBFF

/-- The unit closes a surrogate pair. -/
def isLow (n : Nat) : Bool := 0xDC00 ≤ n && n ≤ 0xDFFF

/-- The text that the pieces spell. There is none if a surrogate lacks its partner. -/
def assemble : List Piece → Option Text
  | [] => some []
  | .char c :: rest => (assemble rest).map (c :: ·)
  | [.unit n] => if isHigh n || isLow n then none else some [Char.ofNat n]
  | .unit n :: .char c :: rest =>
    if isHigh n || isLow n then none else (assemble rest).map (Char.ofNat n :: c :: ·)
  | .unit n :: .unit m :: rest =>
    if isHigh n then
      if isLow m then
        (assemble rest).map (Char.ofNat (0x10000 + (n - 0xD800) * 0x400 + (m - 0xDC00)) :: ·)
      else none
    else if isLow n then none
    else (assemble (.unit m :: rest)).map (Char.ofNat n :: ·)

/-- The value of a hexadecimal digit. -/
def hexDigit? (c : Char) : Option Nat :=
  if c.isDigit then some (c.toNat - 0x30)
  else if 'a' ≤ c ∧ c ≤ 'f' then some (c.toNat - 0x57)
  else if 'A' ≤ c ∧ c ≤ 'F' then some (c.toNat - 0x37)
  else none

/-- The unit that four hexadecimal digits stand for. -/
def hexUnit? (a b c d : Char) : Option Nat := do
  return ((← hexDigit? a) * 16 + (← hexDigit? b)) * 256 + (← hexDigit? c) * 16 + (← hexDigit? d)

/-- The character that a backslash and one letter stand for. -/
def unescape? : Char → Option Char
  | '"' => some '"'
  | '\\' => some '\\'
  | '/' => some '/'
  | 'b' => some '\x08'
  | 'f' => some '\x0c'
  | 'n' => some '\n'
  | 'r' => some '\r'
  | 't' => some '\t'
  | _ => none

/-- One more piece in front of a scanned string, unless the piece is faulty. -/
def withPiece : Option Piece → Option (List Piece × Text) → Option (List Piece × Text)
  | some piece, some (pieces, after) => some (piece :: pieces, after)
  | _, _ => none

/-- The pieces up to the closing quote, and what follows it. -/
def scan : Text → Option (List Piece × Text)
  | [] => none
  | '"' :: rest => some ([], rest)
  | '\\' :: 'u' :: a :: b :: c :: d :: rest =>
    withPiece ((hexUnit? a b c d).map .unit) (scan rest)
  | '\\' :: e :: rest => withPiece ((unescape? e).map .char) (scan rest)
  | c :: rest => withPiece (if c = '\\' ∨ c.toNat < 0x20 then none else some (.char c)) (scan rest)

theorem withPiece_eq_some_iff {piece : Option Piece} {scanned : Option (List Piece × Text)}
    {pieces : List Piece} {after : Text} :
    withPiece piece scanned = some (pieces, after) ↔
      ∃ p ps, piece = some p ∧ scanned = some (ps, after) ∧ p :: ps = pieces := by
  unfold withPiece
  split
  · next p ps r =>
    constructor
    · intro h
      obtain ⟨rfl, rfl⟩ := by simpa using h
      exact ⟨p, ps, rfl, rfl, rfl⟩
    · rintro ⟨q, qs, hq, hs, rfl⟩
      obtain rfl := by simpa using hq
      obtain ⟨rfl, rfl⟩ := by simpa using hs
      rfl
  · next hne =>
    constructor
    · intro h
      cases h
    · rintro ⟨q, qs, rfl, rfl, -⟩
      exact (hne q qs after rfl rfl).elim

/-- Scanning a string uses up at least its closing quote. -/
theorem scan_length {t after : Text} {pieces : List Piece} (h : scan t = some (pieces, after)) :
    after.length < t.length := by
  fun_induction scan t generalizing pieces with
  | case1 => cases h
  | case2 rest =>
    obtain ⟨-, rfl⟩ := by simpa using h
    simp
  | case3 a b c d rest ih =>
    obtain ⟨-, ps, -, hs, -⟩ := withPiece_eq_some_iff.mp h
    have := ih hs
    simp only [List.length_cons]
    omega
  | case4 e rest _ ih | case5 c rest _ _ _ ih =>
    obtain ⟨-, ps, -, hs, -⟩ := withPiece_eq_some_iff.mp h
    have := ih hs
    simp only [List.length_cons]
    omega

end Quoted

/-! ## Numbers -/

namespace Number

/-- At least one digit. -/
def digits? (t : Text) : Option (Text × Text) :=
  let ds := t.takeWhile Char.isDigit
  if ds = [] then none else some (ds, t.dropWhile Char.isDigit)

/-- A leading character among the given ones, which may be missing. -/
def mark (marks : List Char) : Text → Text × Text
  | [] => ([], [])
  | c :: rest => if c ∈ marks then ([c], rest) else ([], c :: rest)

/-- The digits before the point: a zero alone, or digits without a leading zero. -/
def whole? : Text → Option (Text × Text)
  | '0' :: rest => some (['0'], rest)
  | t => digits? t

/-- Digits, with `head` in front of them. -/
def digitsAfter? (head t : Text) : Option (Text × Text) :=
  (digits? t).map fun p => (head ++ p.1, p.2)

/-- The point and the digits after it, which may be missing. -/
def fraction? (t : Text) : Option (Text × Text) :=
  match mark ['.'] t with
  | ([], _) => some ([], t)
  | (point, rest) => digitsAfter? point rest

/-- The exponent with its sign, which may be missing. -/
def exponent? (t : Text) : Option (Text × Text) :=
  match mark ['e', 'E'] t with
  | ([], _) => some ([], t)
  | (letter, rest) =>
    digitsAfter? (letter ++ (mark ['+', '-'] rest).1) (mark ['+', '-'] rest).2

/-- A number as it is written, and what follows it. -/
def scan (t : Text) : Option (Text × Text) := do
  let (sign, t) := mark ['-'] t
  let (whole, t) ← whole? t
  let (fraction, t) ← fraction? t
  let (exponent, t) ← exponent? t
  return (sign ++ whole ++ fraction ++ exponent, t)

theorem mark_append (marks : List Char) (t : Text) :
    (mark marks t).1 ++ (mark marks t).2 = t := by
  unfold mark
  split
  · rfl
  · split <;> rfl

theorem digits?_append {t ds after : Text} (h : digits? t = some (ds, after)) :
    ds ≠ [] ∧ ds ++ after = t := by
  simp only [digits?] at h
  split at h
  · cases h
  · next hne =>
    obtain ⟨rfl, rfl⟩ := by simpa using h
    exact ⟨hne, List.takeWhile_append_dropWhile⟩

theorem whole?_append {t ds after : Text} (h : whole? t = some (ds, after)) :
    ds ≠ [] ∧ ds ++ after = t := by
  unfold whole? at h
  split at h
  · obtain ⟨rfl, rfl⟩ := by simpa using h
    simp
  · exact digits?_append h

theorem digitsAfter?_append {head t p after : Text} (h : digitsAfter? head t = some (p, after)) :
    p ++ after = head ++ t := by
  obtain ⟨⟨ds, r⟩, hd, hp⟩ := Option.map_eq_some_iff.mp h
  obtain ⟨rfl, rfl⟩ := by simpa using hp
  rw [List.append_assoc, (digits?_append hd).2]

theorem fraction?_append {t p after : Text} (h : fraction? t = some (p, after)) :
    p ++ after = t := by
  unfold fraction? at h
  split at h
  · obtain ⟨rfl, rfl⟩ := by simpa using h
    rfl
  · next he =>
    have hm := mark_append ['.'] t
    rw [he] at hm
    exact (digitsAfter?_append h).trans hm

theorem exponent?_append {t p after : Text} (h : exponent? t = some (p, after)) :
    p ++ after = t := by
  unfold exponent? at h
  split at h
  · obtain ⟨rfl, rfl⟩ := by simpa using h
    rfl
  · next letter rest _ he =>
    have hm := mark_append ['e', 'E'] t
    rw [he] at hm
    rw [digitsAfter?_append h, List.append_assoc, mark_append]
    exact hm

/-- A scanned number is not empty, and nothing is lost. -/
theorem scan_append {t literal after : Text} (h : scan t = some (literal, after)) :
    literal ≠ [] ∧ literal ++ after = t := by
  simp only [scan, Option.bind_eq_bind, Option.bind_eq_some_iff] at h
  obtain ⟨⟨whole, t₁⟩, hw, ⟨fraction, t₂⟩, hf, ⟨exponent, t₃⟩, he, hr⟩ := h
  simp only [Option.pure_def, Option.some.injEq, Prod.mk.injEq] at hr
  obtain ⟨rfl, rfl⟩ := hr
  have hw := whole?_append hw
  refine ⟨by simp [hw.1], ?_⟩
  simp only [List.append_assoc]
  rw [exponent?_append he, fraction?_append hf, hw.2, mark_append]

end Number

/-! ## Tokens -/

/-- The smallest parts of a JSON text. -/
inductive Token where
  | openArray
  | closeArray
  | openObject
  | closeObject
  | comma
  | colon
  | scalar (s : Scalar)
deriving DecidableEq, Repr

namespace Token

/-- The characters that may stand between tokens. -/
def isBlank (c : Char) : Bool := c == ' ' || c == '\t' || c == '\n' || c == '\r'

/-- A word that stands for a scalar, of which the first letter is read already. -/
def word? (letters : Text) (s : Scalar) (rest : Text) : Option (Token × Text) :=
  if letters.isPrefixOf rest then some (.scalar s, rest.drop letters.length) else none

/-- The token that starts with `c`, and what follows it. -/
def next? (c : Char) (rest : Text) : Option (Token × Text) :=
  match c with
  | '[' => some (.openArray, rest)
  | ']' => some (.closeArray, rest)
  | '\x7b' => some (.openObject, rest)
  | '\x7d' => some (.closeObject, rest)
  | ',' => some (.comma, rest)
  | ':' => some (.colon, rest)
  | '"' => (Quoted.scan rest).map fun (ps, after) => (.scalar (.string (Quoted.assemble ps)), after)
  | 'n' => word? ['u', 'l', 'l'] .null rest
  | 't' => word? ['r', 'u', 'e'] (.bool true) rest
  | 'f' => word? ['a', 'l', 's', 'e'] (.bool false) rest
  | c => (Number.scan (c :: rest)).map fun (literal, after) => (.scalar (.number literal), after)

private theorem word?_length {letters rest after : Text} {s : Scalar} {token : Token}
    (h : word? letters s rest = some (token, after)) : after.length ≤ rest.length := by
  unfold word? at h
  split at h
  · obtain ⟨-, rfl⟩ := by simpa using h
    simp
  · cases h

theorem next?_length {c : Char} {rest after : Text} {token : Token}
    (h : next? c rest = some (token, after)) : after.length ≤ rest.length := by
  unfold next? at h
  split at h
  case h_7 =>
    obtain ⟨⟨ps, r⟩, hs, he⟩ := Option.map_eq_some_iff.mp h
    obtain ⟨-, rfl⟩ := by simpa using he
    exact Nat.le_of_lt (Quoted.scan_length hs)
  case h_8 | h_9 | h_10 => exact word?_length h
  case h_11 =>
    obtain ⟨⟨literal, r⟩, hs, he⟩ := Option.map_eq_some_iff.mp h
    obtain ⟨-, rfl⟩ := by simpa using he
    obtain ⟨hne, hs⟩ := Number.scan_append hs
    have hl := congrArg List.length hs
    have := List.length_pos_iff.mpr hne
    simp only [List.length_append, List.length_cons] at hl
    omega
  all_goals
    obtain ⟨-, rfl⟩ := by simpa using h
    exact Nat.le_refl _

/-- The tokens of a text, without the blanks between them. -/
def lex : Text → Option (List Token)
  | [] => some []
  | c :: rest =>
    if isBlank c then lex rest
    else match _ : next? c rest with
      | none => none
      | some (token, after) => (lex after).map (token :: ·)
termination_by t => t.length
decreasing_by
  · simp
  · have := next?_length ‹_›
    simp only [List.length_cons]
    omega

end Token

end Dockerfile.Json
