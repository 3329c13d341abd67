import Dockerfile.Proofs.Reading
import Dockerfile.Proofs.Statement.Insert

/-!
# Texts with the same statements on other lines

What an instruction holds lies in the text and the body of its statement, and does not depend on
where they stand.

* `Instruction.HasHeredocAt`, `Statement.hasHeredocAt_toInstruction`: the lines that the heredocs of
  an instruction take are told by its source.
* `Reader.exists_byLines_of_fields`: equal texts and bodies of statements make equal instructions.
-/

namespace Dockerfile

open Text

variable {escape : Char} {text : Text} {k : Nat} {ss ts : List Statement}

/-- The line with the index `k` belongs to a heredoc of the instruction. In the source, a line feed
stands in front of each line of its heredocs. -/
def Instruction.HasHeredocAt (k : Nat) (i : Instruction) : Prop :=
  i.last - lineFeeds i.source ≤ k ∧ k < i.last

instance : DecidablePred (Instruction.HasHeredocAt k) := fun i =>
  inferInstanceAs (Decidable (i.last - lineFeeds i.source ≤ k ∧ k < i.last))

namespace Statement

/-- A statement and its instruction have the same heredoc lines. -/
theorem hasHeredocAt_toInstruction {s : Statement} (hss : ofLines escape (lines text) = .ok ss)
    (hs : s ∈ ss) :
    s.toInstruction.HasHeredocAt k ↔ s.HasHeredocAt k := by
  have hchars : s.Chars (· ≠ '\n') :=
    ofLines_chars (by decide) (fun l hl c hc => (mem_of_mem_lines hl hc).2) hss s hs
  rw [HasHeredocAt, ← lineFeeds_source hchars]
  rfl

end Statement

namespace Reader

/-- A text whose statements have the texts and bodies of others, which start with keywords, is read
as the same instructions. -/
theorem exists_byLines_of_fields {options : ReadOptions} {f : Nat → Nat} (hne : ss ≠ [])
    (hnames : ∀ s ∈ ss, Text.isAlphanum s.name)
    (hescape : Escape.effective options.escape (lines text) = .ok escape)
    (hts : Statement.ofLines escape (lines text) = .ok ts)
    (hfields : ts.map (fun t => (t.text, t.body, t.first)) =
      ss.map (fun s => (s.text, s.body, f s.first))) :
    ∃ js, (byLines options text).value = .ok js ∧
      js.map (fun j => (j.name, j.flags, j.values, j.source, j.first)) =
        (ss.map Statement.toInstruction).map
          (fun i => (i.name, i.flags, i.values, i.source, f i.first)) := by
  -- The name, the flags, the values and the source of a statement lie in its text and body.
  have htexts : ∀ t ∈ ts, ∃ s ∈ ss, s.text = t.text := fun t ht => by
    obtain ⟨s, hs, hst⟩ := List.mem_map.mp (hfields ▸ List.mem_map_of_mem ht)
    exact ⟨s, hs, congrArg Prod.fst hst⟩
  refine ⟨ts.map Statement.toInstruction, byLines_eq_ok.mpr ⟨escape, ts, hescape, hts, ?_, ?_, rfl⟩,
    ?_⟩
  · rintro rfl
    exact hne (List.map_eq_nil_iff.mp hfields.symm)
  · intro t ht
    obtain ⟨s, hs, htext⟩ := htexts t ht
    have hname : t.name = s.name := congrArg Text.firstWord htext.symm
    rw [hname]
    exact hnames s hs
  · have hmap := congrArg (List.map fun p =>
      let i := (Statement.mk p.1 p.2.1 p.2.2 0).toInstruction
      (i.name, i.flags, i.values, i.source, i.first)) hfields
    rw [List.map_map, List.map_map] at hmap ⊢
    exact hmap

end Reader

end Dockerfile
