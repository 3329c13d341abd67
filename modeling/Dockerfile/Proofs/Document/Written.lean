import Dockerfile.Proofs.Document.Layout
import Dockerfile.Proofs.Statement.Complete
import Dockerfile.Proofs.Statement.Reread

/-!
# The lines of a written document

* `Statement.Writable`: the statements that are written on lines of their own.
* `Statement.written`, `Statement.render_eq_unlines_written`: the lines that statements are written
  on, if the line cursor ends each instruction on its last source line.
* `Statement.run_written`: these lines are read as the same statements, with other line numbers.
* `Statement.written_relocate`, `Statement.fields_relocate`: what is read is written the same way,
  and has the same flags and values.
-/

namespace Dockerfile

/-- An instruction with its keyword in capital letters is written the same way. -/
theorem Instruction.render_of_fields {i j : Instruction} (hi : Text.isAlphanum i.name)
    (hname : j.name = Text.upper i.name) (hflags : j.flags = i.flags)
    (hvalues : j.values = i.values) : j.render = i.render := by
  have hkeyword : j.keyword? = i.keyword? := by
    rw [keyword?, hname, Keyword.ofName?_upper hi]
    rfl
  simp only [render, arguments, hkeyword, hname, hflags, hvalues, Text.upper_upper hi]

namespace Statement

open Text

variable {s t : Statement} {ss : List Statement} {c : Continuation} {escape : Char} {lo out : Nat}

/-- A complete statement whose heredocs, if there are any, stand below a line with a value. -/
structure Writable (s : Statement) (escape : Char := defaultEscape) : Prop where
  plain : s.Plain
  complete : s.Complete escape
  lineValues_ne_nil : s.body ≠ [] → s.lineValues ≠ []
  chars : s.Chars fun c => c ≠ '\n' ∧ c ≠ '\r'

/-- Statements on disjoint lines in order, below the line `lo`. -/
structure Below (lo : Nat) (ss : List Statement) : Prop where
  lt_first : ∀ s ∈ ss, lo < s.first
  ordered : ss.Pairwise fun s t => s.last < t.first

theorem Below.tail (h : Below lo (s :: ss)) : Below s.last ss := by
  obtain ⟨hbefore, hordered⟩ := List.pairwise_cons.mp h.ordered
  exact ⟨hbefore, hordered⟩

theorem Below.of_fits (h : Layout.Fits 1 (ss.map toInstruction)) : Below 0 ss :=
  ⟨fun _ hs => h.le_first _ (List.mem_map_of_mem hs), List.pairwise_map.mp h.ordered⟩

/-- The lines on which statements are written below the line `lo`. -/
def written : Nat → List Statement → List Text
  | _, [] => []
  | lo, s :: rest =>
    List.replicate (s.first - lo - 1) [] ++ (s.header :: s.body) ++ written s.last rest

/-! ## Lines -/

namespace Writable

theorem header_ne_nil (h : s.Writable escape) : s.header ≠ [] := by
  obtain ⟨c, rest, hcons, -⟩ := h.plain.exists_header_eq_cons
  simp [hcons]

theorem render_eq (h : s.Writable escape) :
    s.toInstruction.render = unlines (s.header :: s.body) := by
  rw [render_toInstruction h.plain.keyword]
  by_cases hbody : s.body = []
  · simp [hbody, unlines, joinWith]
  · rw [if_neg hbody, if_neg (h.lineValues_ne_nil hbody), unlines_cons hbody]

theorem header_chars (h : s.Writable escape) : ∀ c ∈ s.header, c ≠ '\n' ∧ c ≠ '\r' :=
  Statement.header_chars (by decide)
    (fun _ hc => ⟨ne_of_isAlphanum hc (by decide), ne_of_isAlphanum hc (by decide)⟩)
    h.plain.isAlphanum h.plain.keyword h.chars.1

theorem lineFeeds_render (h : s.Writable escape) :
    lineFeeds s.toInstruction.render = s.body.length := by
  rw [h.render_eq, lineFeeds_unlines, List.length_cons, Nat.add_sub_cancel]
  exact List.forall_mem_cons.mpr
    ⟨fun hmem => (h.header_chars _ hmem).1 rfl, fun l hl hmem => (h.chars.2 l hl _ hmem).1 rfl⟩

/-- The last line of a statement is its header or a terminator. -/
theorem getLast?_ne (h : s.Writable escape) : (s.header :: s.body).getLast? ≠ some [] := by
  by_cases hbody : s.body = []
  · simpa [hbody] using h.header_ne_nil
  · rw [List.getLast?_cons_of_ne_nil hbody]
    exact h.complete.filled.getLast?_ne fun _ => Heredoc.isWord_of_mem_openedBy

end Writable

theorem written_ne_nil (h : ss ≠ []) : written lo ss ≠ [] := by
  cases ss with
  | nil => contradiction
  | cons s ss => simp [written]

theorem written_chars (h : ∀ s ∈ ss, s.Writable escape) :
    ∀ l ∈ written lo ss, ∀ c ∈ l, c ≠ '\n' ∧ c ≠ '\r' := by
  induction ss generalizing lo with
  | nil => simp [written]
  | cons s ss ih =>
    obtain ⟨hs, hss⟩ := List.forall_mem_cons.mp h
    simp only [written, List.forall_mem_append, List.forall_mem_cons]
    refine ⟨⟨fun l hl => ?_, hs.header_chars, hs.chars.2⟩, ih hss⟩
    rw [List.eq_of_mem_replicate hl]
    simp

theorem getLast?_written_ne (h : ∀ s ∈ ss, s.Writable escape) :
    (written lo ss).getLast? ≠ some [] := by
  induction ss generalizing lo with
  | nil => simp [written]
  | cons s ss ih =>
    obtain ⟨hs, hss⟩ := List.forall_mem_cons.mp h
    rw [written, List.getLast?_append]
    by_cases hne : ss = []
    · subst hne
      rw [written, List.getLast?_append, List.getLast?_nil, Option.none_or]
      cases hlast : (s.header :: s.body).getLast? with
      | none => simp at hlast
      | some l => simpa [hlast] using hs.getLast?_ne
    · rw [List.getLast?_eq_some_getLast (written_ne_nil hne), Option.some_or,
        ← List.getLast?_eq_some_getLast (written_ne_nil hne)]
      exact ih hss

/-- The lines are read back from the text that they form. -/
theorem lines_unlines_written (h : ∀ s ∈ ss, s.Writable escape) :
    lines (unlines (written lo ss)) = written lo ss :=
  lines_unlines (fun l hl hmem => (written_chars h l hl _ hmem).1 rfl)
    (fun l hl hmem => (written_chars h l hl _ hmem).2 rfl) (getLast?_written_ne h)

/-! ## Writing -/

/-- Where the cursor ends each instruction on its last source line, the lines of a document are
those of its statements. -/
theorem render_eq_unlines_written (h : ∀ s ∈ ss, s.Writable escape) (hbelow : Below lo ss)
    (hnext : ∀ s ∈ ss, ∀ line ≤ s.first, Layout.next c line s.toInstruction = s.last)
    (hne : ss ≠ []) :
    Layout.render c lo (ss.map toInstruction) = '\n' :: unlines (written lo ss) := by
  induction ss generalizing lo with
  | nil => contradiction
  | cons s ss ih =>
    obtain ⟨hs, hss⟩ := List.forall_mem_cons.mp h
    obtain ⟨hnext, hnexts⟩ := List.forall_mem_cons.mp hnext
    have hlt := hbelow.lt_first s List.mem_cons_self
    have hgap : s.first - lo = s.first - lo - 1 + 1 := by omega
    have hfirst : Layout.place (s.first - lo) s.toInstruction =
        '\n' :: unlines (List.replicate (s.first - lo - 1) [] ++ (s.header :: s.body)) := by
      rw [Layout.place, hs.render_eq, unlines_blank_append _ (by simp), hgap, List.replicate_succ]
      rfl
    rw [List.map_cons, Layout.render_cons, hnext lo (Nat.le_of_lt hlt), written]
    show Layout.place (s.first - lo) s.toInstruction ++ _ = _
    by_cases hne : ss = []
    · subst hne
      simp [hfirst, written]
    · rw [hfirst, ih hss hbelow.tail hnexts hne, unlines_append (by simp) (written_ne_nil hne)]
      rfl

/-! ## Reading -/

/-- The statements as they are read from the lines that they are written on below the line `out`. -/
def relocate : Nat → Nat → List Statement → List Statement
  | _, _, [] => []
  | out, lo, s :: rest =>
    let first := out + (s.first - lo)
    { text := s.header, body := s.body, first, last := first + s.body.length } ::
      relocate (first + s.body.length) s.last rest

theorem Writable.relocated (h : s.Writable) (htext : t.text = s.header) (hbody : t.body = s.body) :
    t.Writable := by
  have hvalues := h.plain.lineValues_of_header htext
  have hkeyword := h.plain.keyword?_of_header htext
  refine ⟨⟨?_, ?_, ?_⟩, ⟨?_, ?_, ?_, ?_⟩, ?_, ?_, ?_⟩
  · rw [htext]
    exact h.plain.trimmed_header
  · rw [h.plain.name_of_header htext]
    exact isAlphanum_upper h.plain.isAlphanum
  · rw [hkeyword]
    exact h.plain.keyword
  · rw [htext]
    exact h.plain.trimmed_header
  · rw [htext]
    exact h.header_ne_nil
  · rw [htext]
    intro hlast
    rcases h.plain.getLast?_header hlast with hlast | hlast
    · exact h.complete.getLast?_ne hlast
    · cases hlast
  · rw [htext, hbody, h.plain.openedBy_header]
    exact h.complete.filled
  · rw [hbody, hvalues]
    exact h.lineValues_ne_nil
  · rw [htext]
    exact h.header_chars
  · rw [hbody]
    exact h.chars.2

/-- A statement that has been read from a header has the same header. -/
theorem Writable.header_eq (h : s.Writable escape) (htext : t.text = s.header) :
    t.header = s.header := by
  rw [header, h.plain.name_of_header htext, h.plain.flags_of_header htext,
    h.plain.lineValues_of_header htext, upper_upper h.plain.isAlphanum]
  rfl

theorem Writable.isSkipped_header (h : s.Writable escape) : isSkipped s.header = false := by
  obtain ⟨c, rest, hcons, hc⟩ := h.plain.exists_header_eq_cons
  rw [hcons]
  simpa [isSkipped] using ne_of_isAlphanum hc (by decide)

/-- The lines that a statement is written on are read as this statement. -/
theorem Writable.run_header (h : s.Writable) (n : Nat) :
    Phase.between.run defaultEscape n (s.header :: s.body) =
      (.between,
        [{ text := s.header, body := s.body, first := n, last := n + s.body.length }]) := by
  have hsource := Phase.run_source (n := n)
    (h.relocated (t := { s with text := s.header }) rfl rfl).complete h.isSkipped_header
  exact hsource

/-- The lines that statements are written on are read as these statements. -/
theorem run_written (h : ∀ s ∈ ss, s.Writable) (hbelow : Below lo ss) :
    Phase.between.run defaultEscape (out + 1) (written lo ss) = (.between, relocate out lo ss) := by
  induction ss generalizing lo out with
  | nil => rfl
  | cons s ss ih =>
    obtain ⟨hs, hss⟩ := List.forall_mem_cons.mp h
    have hlt := hbelow.lt_first s List.mem_cons_self
    have hfirst : out + 1 + (s.first - lo - 1) = out + (s.first - lo) := by omega
    have hrest : out + (s.first - lo) + (s.body.length + 1) =
        out + (s.first - lo) + s.body.length + 1 := by omega
    rw [written, List.append_assoc, Phase.run_blank_append, Phase.run_append, hfirst,
      hs.run_header, List.length_cons, hrest, ih hss hbelow.tail]
    rfl

theorem writable_relocate (h : ∀ s ∈ ss, s.Writable) : ∀ t ∈ relocate out lo ss, t.Writable := by
  induction ss generalizing lo out with
  | nil => simp [relocate]
  | cons s ss ih =>
    obtain ⟨hs, hss⟩ := List.forall_mem_cons.mp h
    exact List.forall_mem_cons.mpr ⟨hs.relocated rfl rfl, ih hss⟩

/-- Statements that have been read again are written on the same lines. -/
theorem written_relocate (h : ∀ s ∈ ss, s.Writable escape) :
    written out (relocate out lo ss) = written lo ss := by
  induction ss generalizing lo out with
  | nil => rfl
  | cons s ss ih =>
    obtain ⟨hs, hss⟩ := List.forall_mem_cons.mp h
    have hgap : out + (s.first - lo) - out - 1 = s.first - lo - 1 := by omega
    rw [relocate, written, written, ih hss, hgap, hs.header_eq (by rfl)]

/-- Reading statements again changes the case of their keywords only. -/
theorem fields_relocate (h : ∀ s ∈ ss, s.Writable escape) :
    ((relocate out lo ss).map toInstruction).map (fun i => (i.name, i.flags, i.values)) =
      (ss.map toInstruction).map fun i => (upper i.name, i.flags, i.values) := by
  induction ss generalizing lo out with
  | nil => rfl
  | cons s ss ih =>
    obtain ⟨hs, hss⟩ := List.forall_mem_cons.mp h
    have hfields (t : Statement) (htext : t.text = s.header) (hbody : t.body = s.body) :
        (t.name, t.flags, t.values) = (upper s.name, s.flags, s.values) := by
      rw [hs.plain.name_of_header htext, hs.plain.flags_of_header htext, values, values, hbody,
        hs.plain.lineValues_of_header htext]
    rw [relocate, List.map_cons, List.map_cons, ih hss]
    exact congrArg (· :: _) (hfields _ rfl rfl)

end Statement

end Dockerfile
