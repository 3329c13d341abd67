/-!
# Texts and white space

A text is the list of its characters, so that every reader below is a recursion on a list.

* `Text.isSpace`: the characters with the Unicode property `White_Space`.
* `Text.trimStart`, `Text.trimEnd`, `Text.trim`: a text without the white space at its ends.
* `Text.joinWith`: texts in order with a separator between neighbours.
-/

namespace Dockerfile

/-- A text is the list of its characters. -/
abbrev Text := List Char

namespace Text

/-! ## White space -/

/-- The characters with the Unicode property `White_Space`. -/
def isSpace (c : Char) : Bool :=
  let n := c.toNat
  (0x09 ≤ n && n ≤ 0x0D) || n == 0x20 || n == 0x85 || n == 0xA0 || n == 0x1680 ||
    (0x2000 ≤ n && n ≤ 0x200A) || n == 0x2028 || n == 0x2029 || n == 0x202F || n == 0x205F ||
    n == 0x3000

/-- The text without its leading white space. -/
def trimStart (t : Text) : Text := t.dropWhile isSpace

/-- The text without its trailing white space. -/
def trimEnd (t : Text) : Text := (t.reverse.dropWhile isSpace).reverse

/-- The text without the white space at both ends. -/
def trim (t : Text) : Text := trimEnd (trimStart t)

theorem length_trimStart_le (t : Text) : (trimStart t).length ≤ t.length :=
  (List.dropWhile_suffix _).length_le

/-- A trimmed text starts with a character that is no white space. -/
theorem isSpace_of_trimStart {t r : Text} {c : Char} (h : trimStart t = c :: r) :
    isSpace c = false := by
  have := List.head?_dropWhile_not isSpace t
  rw [← trimStart, h] at this
  simpa using this

/-! ## Pieces -/

/-- The texts in order, with `sep` between neighbours. -/
def joinWith (sep : Text) : List Text → Text
  | [] => []
  | [t] => t
  | t :: u :: rest => t ++ sep ++ joinWith sep (u :: rest)

/-- The text before the given ending, if the text has that ending. -/
def dropEnd? (ending : Char) (t : Text) : Option Text :=
  if t.getLast? = some ending then some t.dropLast else none

/-- A number in decimal digits. -/
def ofNat (n : Nat) : Text := Nat.toDigits 10 n

/-! ## ASCII case -/

/-- The text with each ASCII capital letter replaced by its small letter. -/
def foldCase (t : Text) : Text := t.map Char.toLower

/-- The two texts differ at most in the case of ASCII letters. -/
def sameLetters (t u : Text) : Bool := foldCase t == foldCase u

theorem sameLetters_iff {t u : Text} : sameLetters t u ↔ foldCase t = foldCase u := by
  simp [sameLetters]

/-- At least one character, and only ASCII letters and digits. -/
def isAlphanum (t : Text) : Bool := !t.isEmpty && t.all Char.isAlphanum

end Text

end Dockerfile
