import Dockerfile.Proofs.Text.Line
import Dockerfile.Proofs.Text.Trim

/-!
# One more line in a text

* `Text.insertLine`: a text with one more line.
* `Text.trim_dropReturn`: a carriage return in a line ending is no part of the trimmed line.
* `Text.lines_insertLine`: the lines of the text with one more line. A text that does not end in a
  line feed gets one in front of a line at its end, and this makes a carriage return at its end a
  part of the line ending.
-/

namespace Dockerfile.Text

variable {t l line : Text} {k : Nat}

/-- The text with one more line, above the line with the index `k` or else behind the last line. -/
def insertLine (line : Text) : Nat → Text → Text
  | 0, t => line ++ '\n' :: t
  | k + 1, t =>
    match t.dropWhile (· ≠ '\n') with
    | [] => t ++ '\n' :: line
    | _ :: rest => t.takeWhile (· ≠ '\n') ++ '\n' :: insertLine line k rest

theorem insertLine_succ_append (hn : '\n' ∉ l) :
    insertLine line (k + 1) (l ++ '\n' :: t) = l ++ '\n' :: insertLine line k t := by
  obtain ⟨htake, hdrop⟩ := cut_iff.mpr ⟨Eq.refl (l ++ '\n' :: t),
    fun c hc => decide_eq_true (p := c ≠ '\n') fun h => hn (h ▸ hc), by simp⟩
  rw [insertLine, hdrop, htake]

theorem insertLine_succ_of_not_mem (hn : '\n' ∉ t) :
    insertLine line (k + 1) t = t ++ '\n' :: line := by
  have hdrop : t.dropWhile (· ≠ '\n') = [] :=
    List.dropWhile_eq_nil_iff.mpr fun c hc => decide_eq_true fun h => hn (h ▸ hc)
  rw [insertLine, hdrop]

theorem trim_dropReturn (l : Text) : trim (dropReturn l) = trim l := by
  by_cases hlast : l.getLast? = some '\r'
  · obtain ⟨rest, rfl⟩ := List.getLast?_eq_some_iff.mp hlast
    have hdrop : dropReturn (rest ++ ['\r']) = rest := by simp [dropReturn, dropEnd?]
    rw [hdrop, trim_concat (by decide)]
  · rw [dropReturn_of_getLast?_ne hlast]

/-- A new line stands between the lines before it and behind it. At the end of a text without a
final line feed, the line before it gets a line ending. -/
theorem lines_insertLine (hline : '\n' ∉ line) (hk : k ≤ (lines t).length) :
    lines (insertLine line k t) = (lines t).take k ++ dropReturn line :: (lines t).drop k ∨
      ∃ above last, lines t = above ++ [last] ∧ k = (lines t).length ∧
        lines (insertLine line k t) = above ++ dropReturn last :: lines line := by
  induction k generalizing t with
  | zero =>
    left
    exact lines_append_lineFeed hline
  | succ k ih =>
    by_cases hfeed : '\n' ∈ t
    · obtain ⟨l, rest, rfl, hn⟩ := List.eq_append_cons_of_mem hfeed
      rw [lines_append_lineFeed hn] at hk ⊢
      rw [insertLine_succ_append hn, lines_append_lineFeed hn]
      rcases ih (Nat.le_of_succ_le_succ hk) with hlines | ⟨above, last, hrest, hlength, hlines⟩
      · left
        rw [hlines]
        rfl
      · right
        refine ⟨dropReturn l :: above, last, by rw [hrest]; rfl, by rw [hlength]; rfl, ?_⟩
        rw [hlines]
        rfl
    · have ht : t ≠ [] := by
        rintro rfl
        cases hk
      rw [lines_of_lineFeed_not_mem hfeed ht] at hk ⊢
      right
      refine ⟨[], t, rfl, Nat.le_antisymm hk (Nat.succ_le_succ (Nat.zero_le k)), ?_⟩
      rw [insertLine_succ_of_not_mem hfeed, lines_append_lineFeed hfeed]
      rfl

/-- The carriage return becomes a part of the line ending. -/
example : lines (insertLine "# b".toList 1 "a\r".toList) = ["a".toList, "# b".toList] := by decide

end Dockerfile.Text
