import Dockerfile.Proofs.Reading.Append
import Dockerfile.Proofs.Reading.Fields

/-!
# One more blank line or comment

Below the directives and outside of heredocs, a blank line or a comment is inert. It may stand
between the lines of an instruction, at the end of the text, and look like a directive.

* `Escape.effective_insertLine`: behind a line that is no directive, it selects no escape character.
* `Statement.exists_ofLines_insertLine`: the statements of the text with one more line.
* `Reader.byLines_insertLine`: the instructions are read as before, further down.
-/

namespace Dockerfile

open Text

variable {text line : Text} {k : Nat}

namespace Escape

theorem effective_insertLine {escape : Char} (hk : k ≤ (lines text).length)
    (hdirective : ∃ l ∈ (lines text).take k, Directive.ofLine? l = none) (hline : '\n' ∉ line) :
    effective escape (lines (insertLine line k text)) = effective escape (lines text) := by
  rcases lines_insertLine hline hk with hlines | ⟨above, last, htext, hlength, hlines⟩
  · have hcut : (lines text).take k ++ (lines text).drop k = lines text := List.take_append_drop ..
    rw [hlines, effective_append hdirective, ← effective_append hdirective, hcut]
  · rw [hlength, List.take_length, htext] at hdirective
    have hsame : (above ++ [dropReturn last]).map trim = (above ++ [last]).map trim := by
      simp [trim_dropReturn]
    have habove : ∃ l ∈ above ++ [dropReturn last], Directive.ofLine? l = none := by
      obtain ⟨l, hl, hnone⟩ := hdirective
      rcases List.mem_append.mp hl with hl | hl
      · exact ⟨l, List.mem_append_left _ hl, hnone⟩
      · rw [List.mem_singleton.mp hl] at hnone
        rw [← Directive.ofLine?_congr (trim_dropReturn last)] at hnone
        exact ⟨_, List.mem_append_right _ List.mem_cons_self, hnone⟩
    rw [hlines, htext, List.append_cons, effective_append habove, effective_congr hsame]

end Escape

namespace Statement

theorem exists_ofLines_insertLine {escape : Char} {ss : List Statement}
    (h : ofLines escape (lines text) = .ok ss) (hk : k ≤ (lines text).length)
    (hline : '\n' ∉ line) (hidle : Idle line)
    (hheredoc : ∀ s ∈ ss, ¬ s.HasHeredocAt k) :
    ∃ ts, ofLines escape (lines (insertLine line k text)) = .ok ts ∧
      ts.map (fun t => (t.text, t.body, t.first)) =
        ss.map (fun s => (s.text, s.body, lowered k s.first)) := by
  rcases lines_insertLine hline hk with hlines | ⟨above, last, htext, hlength, hlines⟩
  · have hcut : (lines text).take k ++ (lines text).drop k = lines text := List.take_append_drop ..
    rw [← hcut] at h
    have htake : ((lines text).take k).length = k := List.length_take_of_le hk
    have hinsert := exists_ofLines_insert (hidle.congr (trim_dropReturn line)) h (by rwa [htake])
    rwa [htake, ← hlines] at hinsert
  · -- The line ending of the last line has no effect on its statement.
    rw [htext] at h
    have hended := ofLines_dropReturn h
    rw [hlines, List.append_cons]
    by_cases hempty : line = []
    · subst hempty
      refine ⟨ss, by simpa [lines] using hended, List.map_congr_left fun s hs => ?_⟩
      have hs' := (ofLines_spans h).2 s hs
      rw [lowered_of_le (Nat.le_trans hs'.1.first_le_last (by rw [hlength, htext]; exact hs'.2))]
    · have hk' : (above ++ [dropReturn last]).length = k := by simp [hlength, htext]
      rw [← List.append_nil (above ++ [dropReturn last])] at hended
      have hinsert := exists_ofLines_insert hidle hended (by rwa [hk'])
      rwa [hk', ← lines_of_lineFeed_not_mem hline hempty] at hinsert

end Statement

namespace Reader

variable {options : ReadOptions} {is : List Instruction}

/-- Outside of heredocs and behind a line that is no directive, a text may have one more blank line
or comment. Its instructions are the same, and those that start behind the new line start one line
further down. -/
theorem byLines_insertLine (h : (byLines options text).value = .ok is)
    (hk : k ≤ (lines text).length)
    (hdirective : ∃ l ∈ (lines text).take k, Directive.ofLine? l = none)
    (hheredoc : ∀ i ∈ is, ¬ i.HasHeredocAt k) (hline : '\n' ∉ line)
    (hidle : Statement.Idle line) :
    ∃ js, (byLines options (insertLine line k text)).value = .ok js ∧
      js.map (fun j => (j.name, j.flags, j.values, j.source, j.first)) =
        is.map (fun i =>
          (i.name, i.flags, i.values, i.source, if k < i.first then i.first + 1 else i.first)) := by
  obtain ⟨escape, ss, hescape, hss, hne, hnames, rfl⟩ := byLines_eq_ok.mp h
  have hbodies : ∀ s ∈ ss, ¬ s.HasHeredocAt k := fun s hs hat =>
    hheredoc _ (List.mem_map_of_mem hs) ((Statement.hasHeredocAt_toInstruction hss hs).mpr hat)
  obtain ⟨ts, hts, hfields⟩ := Statement.exists_ofLines_insertLine hss hk hline hidle hbodies
  refine exists_byLines_of_fields hne hnames ?_ hts hfields
  rw [Escape.effective_insertLine hk hdirective hline, hescape]

/-- A directive, a heredoc, a statement in two parts and one that stays open. -/
def gappedText : Text :=
  "# escape=`\nRUN <<E\n# kept\nE\nFROM a `\r\n AS b\nUSER c `".toList

/-- Between the two parts, the line selects no escape character. -/
theorem byLines_insertLine_gappedText :
    ∃ is js, (byLines {} gappedText).value = .ok is ∧ is.map (·.first) = [2, 5, 7] ∧
      (byLines {} (insertLine " # escape=\\\r".toList 5 gappedText)).value = .ok js ∧
      js.map (fun j => (j.name, j.flags, j.values, j.source, j.first)) =
        is.map (fun i =>
          (i.name, i.flags, i.values, i.source, if 5 < i.first then i.first + 1 else i.first)) := by
  have h : (byLines {} gappedText).value =
      .ok ((byLines {} gappedText).value.toOption.getD []) := by
    decide +kernel
  have hidle : Statement.Idle " # escape=\\\r".toList :=
    Statement.isSkipped_trim_iff.mp (by decide +kernel)
  obtain ⟨js, hjs, hfields⟩ := byLines_insertLine (k := 5) h (by decide +kernel)
    (by decide +kernel) (by decide +kernel) (by decide) hidle
  exact ⟨_, js, h, by decide +kernel, hjs, hfields⟩

end Reader

end Dockerfile
