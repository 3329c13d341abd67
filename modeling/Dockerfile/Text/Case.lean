import Dockerfile.Text.Basic
import Dockerfile.Text.CaseTable

/-!
# Upper case

* `Text.upper`: the text in capital letters, by the full Unicode rules (`ß` becomes `SS`).
* `Text.upper_of_ascii`: on ASCII texts these rules are those of the ASCII letters.
-/

namespace Dockerfile.Text

/-- The capital form of a character, which may be longer than one character. -/
def upperChar (c : Char) : Text :=
  if c.toNat < 0x80 then [c.toUpper]
  else match CaseTable.expansions.lookup c.toNat with
    | some ns => ns.map Char.ofNat
    | none => match CaseTable.shifts.find? (·.covers c.toNat) with
      | some s => [Char.ofNat (c.toNat + s.offset).toNat]
      | none => [c]

/-- The text in capital letters. -/
def upper (t : Text) : Text := t.flatMap upperChar

theorem upper_of_ascii {t : Text} (h : ∀ c ∈ t, c.toNat < 0x80) :
    upper t = t.map Char.toUpper := by
  induction t with
  | nil => rfl
  | cons c t ih =>
    have hc : upperChar c = [c.toUpper] := if_pos (h c (by simp))
    have ht := ih fun d hd => h d (by simp [hd])
    simp only [upper] at ht
    simp [upper, hc, ht]

end Dockerfile.Text
