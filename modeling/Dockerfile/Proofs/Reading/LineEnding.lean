import Dockerfile.Proofs.Text.Line
import Dockerfile.Reading

/-!
# Line endings

A text is read for its lines. A carriage return in front of a line feed is part of the line ending,
so a text without carriage returns may have one in front of any of its line feeds.

* `Text.withReturns`: the text with carriage returns in front of some line feeds.
* `Text.lines_withReturns`: it has the same lines.
* `Reader.byLines_withReturns`: it is read as the same instructions, or refused with the same error.
-/

namespace Dockerfile

open Text

namespace Text

/-- The text with a carriage return in front of some line feeds: of the one with the index `k` among
the line feeds, if `p k`. -/
def withReturns (p : Nat → Bool) : Text → Text
  | [] => []
  | c :: t =>
    if c = '\n' then
      (if p 0 then ['\r', '\n'] else ['\n']) ++ withReturns (fun k => p (k + 1)) t
    else c :: withReturns p t

theorem lines_withReturns {t : Text} (h : '\r' ∉ t) (p : Nat → Bool) :
    lines (withReturns p t) = lines t := by
  induction t generalizing p with
  | nil => rfl
  | cons c t ih =>
    simp only [List.mem_cons, not_or] at h
    obtain ⟨hc, ht⟩ := h
    rw [withReturns]
    by_cases hfeed : c = '\n'
    · subst hfeed
      have hrest := ih ht fun k => p (k + 1)
      cases p 0 with
      | false => exact congrArg ([] :: ·) hrest
      | true => exact congrArg ([] :: ·) hrest
    · rw [if_neg hfeed, lines_cons hfeed fun hr => absurd hr.symm hc, ih ht,
        ← lines_cons hfeed fun hr => absurd hr.symm hc]

end Text

namespace Reader

variable {options : ReadOptions} {text : Text}

theorem byLines_congr {u : Text} (h : lines u = lines text) :
    byLines options u = byLines options text := by
  simp only [byLines, h]

/-- Line endings make no difference: the instructions, the error and the events are those of the
text with line feeds only. -/
theorem byLines_withReturns (h : '\r' ∉ text) (p : Nat → Bool) :
    byLines options (withReturns p text) = byLines options text :=
  byLines_congr (lines_withReturns h p)

/-- A directive, a header on two lines around a comment, and a heredoc below it. -/
def feedText : Text := "# escape=`\nRUN <<E `\n # x\n  y\n`\n\nE\nFROM a `\n".toList

theorem byLines_withReturns_feedText :
    '\r' ∉ feedText ∧
      withReturns (· % 3 != 1) feedText =
        "# escape=`\r\nRUN <<E `\n # x\r\n  y\r\n`\n\r\nE\r\nFROM a `\n".toList ∧
      byLines {} (withReturns (· % 3 != 1) feedText) = byLines {} feedText ∧
      (byLines {} feedText).value.toOption.isSome := by
  have h : '\r' ∉ feedText := by decide +kernel
  exact ⟨h, by decide +kernel, byLines_withReturns h _, by decide +kernel⟩

end Reader

end Dockerfile
