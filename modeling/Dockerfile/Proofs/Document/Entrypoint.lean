import Dockerfile.Document.Layout
import Dockerfile.Proofs.Argument.Split
import Dockerfile.Proofs.Json.Texts
import Dockerfile.Proofs.Reading.Line

/-!
# Entry points

The values of an entry point are always written as an array of strings. They are read back if each
of them can stand between quotes as it is. An entry point that was read from anything else than an
array of strings is therefore written in another form than it was read in.

* `Reader.byLines_entrypoint`: an entry point on one line.
* `Instruction.byLines_render`: the values of an entry point are read back.
* `Document.parse_shellEntrypoint`, `Document.exists_shellEntrypoint_ne`: an entry point that is no
  array of strings.
-/

namespace Dockerfile

open Text

/-! ## Reading -/

theorem Keyword.ofName?_entrypoint : ofName? "ENTRYPOINT".toList = some .entrypoint := by decide

theorem Statement.lineValues_entrypoint {s : Statement} (hkeyword : s.keyword? = some .entrypoint)
    (hrest : s.rest ≠ []) :
    s.lineValues =
      if s.rest.head? = some '[' then (Json.parseTexts s.rest).getD [s.rest] else [s.rest] := by
  simp [lineValues, isBracketed, takesText, hkeyword, hrest]

/-- An entry point on one line, without flags. -/
theorem Reader.byLines_entrypoint {options : ReadOptions} {rest : Text} (ht : Trimmed rest)
    (hne : rest ≠ []) (hn : '\n' ∉ rest) (hlast : rest.getLast? ≠ some options.escape)
    (hflag : Argument.NoFlag rest) :
    (byLines options ("ENTRYPOINT ".toList ++ rest)).value =
      .ok [{
        name := "ENTRYPOINT".toList
        values := if rest.head? = some '[' then (Json.parseTexts rest).getD [rest] else [rest]
        first := 1
        last := 1
        source := "ENTRYPOINT ".toList ++ rest }] := by
  have hword : isAlphanum "ENTRYPOINT".toList := by decide
  let s : Statement := { text := "ENTRYPOINT".toList ++ ' ' :: rest, first := 1, last := 1 }
  have hname : s.name = "ENTRYPOINT".toList := firstWord_spaced hword ht.2 hne
  have hspan : Argument.spanFlags (afterFirstWord s.text) = ([], rest) := by
    rw [afterFirstWord_spaced hword ht hne, hflag.spanFlags_eq]
  have hflags : s.flags = [] := by rw [Statement.flags, hspan]
  have hrest : s.rest = rest := by rw [Statement.rest, hspan]
  have hkeyword : s.keyword? = some .entrypoint := by
    rw [Statement.keyword?, hname, Keyword.ofName?_entrypoint]
  have hvalues : s.values = s.lineValues := rfl
  calc (byLines options ("ENTRYPOINT ".toList ++ rest)).value
    _ = .ok [s.toInstruction] := byLines_spaced hword (by decide) ht hne hn hlast
    _ = _ := by
      rw [Statement.toInstruction, hname, hflags, hvalues,
        Statement.lineValues_entrypoint hkeyword (by rwa [hrest]), hrest]
      rfl

/-- An entry point in brackets, with any text between them. -/
theorem Reader.byLines_brackets {inner : Text} (hn : '\n' ∉ inner) :
    (byLines {} ("ENTRYPOINT ".toList ++ ('[' :: inner ++ [']']))).value =
      .ok [{
        name := "ENTRYPOINT".toList
        values := (Json.parseTexts ('[' :: inner ++ [']'])).getD ['[' :: inner ++ [']']]
        first := 1
        last := 1
        source := "ENTRYPOINT ".toList ++ ('[' :: inner ++ [']']) }] := by
  have hlast : ('[' :: inner ++ [']']).getLast? = some ']' := List.getLast?_concat
  have htrail : NoTrail ('[' :: inner ++ [']']) := by
    rw [NoTrail, hlast]
    rintro c ⟨⟩
    decide
  refine byLines_entrypoint ⟨noLead_cons.mpr (by decide), htrail⟩ (by simp) (by simpa using hn)
    (by rw [hlast]; decide) (Argument.noFlag_of_not_prefix (noLead_cons.mpr (by decide)) ?_)
  simp

/-! ## Writing -/

namespace Instruction

variable {i : Instruction}

/-- An entry point without values is written as its keyword, and otherwise with an array. -/
theorem render_entrypoint (hkeyword : i.keyword? = some .entrypoint) (hflags : i.flags = []) :
    i.render = if i.values = [] then "ENTRYPOINT".toList else "ENTRYPOINT ".toList ++
      ('[' :: joinWith ", ".toList (i.values.map quoted) ++ [']']) := by
  have hname : upper i.name = "ENTRYPOINT".toList := Keyword.upper_eq_spelling hkeyword
  rw [render, arguments, if_pos hkeyword, hname, hflags]
  split <;> rfl

theorem lineFeed_mem_quoted_iff {value : Text} : '\n' ∈ quoted value ↔ '\n' ∈ value := by
  simp [quoted]

/-- The values of an entry point are read back if they can stand between quotes as they are. -/
theorem byLines_render (hkeyword : i.keyword? = some .entrypoint)
    (hflags : i.flags = []) (hvalues : ∀ v ∈ i.values, Json.Verbatim v) :
    (Reader.byLines {} i.render).value =
      .ok [{ name := "ENTRYPOINT".toList, values := i.values, first := 1, last := 1,
             source := i.render }] := by
  rw [render_entrypoint hkeyword hflags]
  by_cases hnil : i.values = []
  · rw [if_pos hnil, hnil]
    decide +kernel
  · have hparse := Json.parseTexts_quoted hvalues
    have hinner : ∀ c ∈ joinWith ", ".toList (i.values.map quoted), c ≠ '\n' := by
      refine forall_mem_joinWith (by simp) fun l hl c hc => ?_
      obtain ⟨v, hv, rfl⟩ := List.mem_map.mp hl
      rintro rfl
      exact (hvalues v hv).lineFeed_not_mem (lineFeed_mem_quoted_iff.mp hc)
    rw [if_neg hnil, Reader.byLines_brackets fun hmem => hinner _ hmem rfl, hparse]
    rfl

/-- An entry point with values that look like separators, comments and heredocs. -/
def oddEntrypoint : Instruction :=
  { name := "EntryPoint".toList
    values := ["", "[a", "b]", ", ", "# c", "<<E", " é\u3000", "--x"].map String.toList }

theorem byLines_render_oddEntrypoint :
    (Reader.byLines {} oddEntrypoint.render).value =
      .ok [{ name := "ENTRYPOINT".toList, values := oddEntrypoint.values, first := 1, last := 1,
             source := oddEntrypoint.render }] :=
  byLines_render (by decide) rfl (by decide +kernel)

end Instruction

/-! ## Other forms -/

namespace Document

/-- An instruction on the first line is the whole text. -/
theorem text_of_singleton {d : Document} {i : Instruction} (h : d.instructions = [i])
    (hfirst : i.first = 1) (options : RenderOptions) : d.text options = i.render := by
  simp [text, h, Layout.place, hfirst]

/-- In brackets and quotes, a text is read as one value if it can stand there as it is. -/
theorem parse_brackets_iff {value : Text} (hn : '\n' ∉ value) :
    (∃ d, (parse ("ENTRYPOINT ".toList ++ ('[' :: Instruction.quoted value ++ [']']))).value =
        .ok d ∧ d.instructions.map (·.values) = [[value]]) ↔ Json.Verbatim value := by
  have hread := parse_of_byLines
    (Reader.byLines_brackets (mt Instruction.lineFeed_mem_quoted_iff.mp hn))
  rw [← Json.parseTexts_quoted_iff]
  generalize hbrackets : '[' :: Instruction.quoted value ++ [']'] = brackets at hread ⊢
  constructor
  · rintro ⟨d, hd, hvalues⟩
    rw [hread] at hd
    cases hd
    rw [List.map_singleton, List.singleton_inj] at hvalues
    cases hparse : Json.parseTexts brackets with
    | none =>
      -- The array itself as a value is longer than what stands in it.
      rw [hparse, Option.getD_none, List.singleton_inj, ← hbrackets] at hvalues
      have hlength := congrArg List.length hvalues
      simp [Instruction.quoted] at hlength
      omega
    | some values =>
      rw [hparse, Option.getD_some] at hvalues
      exact congrArg some hvalues
  · intro hparse
    exact ⟨_, hread, by rw [hparse]; rfl⟩

/-- An entry point that is no array of strings is read as one value. It is written as an array, and
what is written has the same value if it can stand between quotes as it is. -/
theorem parse_shellEntrypoint {rest : Text} (ht : Trimmed rest) (hne : rest ≠ [])
    (hn : '\n' ∉ rest) (hlast : rest.getLast? ≠ some defaultEscape) (hflag : ¬ "--".toList <+: rest)
    (hshell : Json.parseTexts rest = none) :
    ∃ d, (parse ("ENTRYPOINT ".toList ++ rest)).value = .ok d ∧
      d.instructions = [{ name := "ENTRYPOINT".toList, values := [rest], first := 1, last := 1,
                          source := "ENTRYPOINT ".toList ++ rest }] ∧
      ∀ options,
        d.text options = "ENTRYPOINT ".toList ++ ('[' :: Instruction.quoted rest ++ [']']) ∧
        d.text options ≠ "ENTRYPOINT ".toList ++ rest ∧
        ((∃ e, (parse (d.text options)).value = .ok e ∧
          e.instructions.map (·.values) = [[rest]]) ↔ Json.Verbatim rest) := by
  have hread : (Reader.byLines {} ("ENTRYPOINT ".toList ++ rest)).value = _ :=
    Reader.byLines_entrypoint ht hne hn hlast (Argument.noFlag_of_not_prefix ht.1 hflag)
  rw [hshell, Option.getD_none, ite_self] at hread
  refine ⟨_, parse_of_byLines hread, rfl, fun options => ?_⟩
  generalize hi : ({ name := "ENTRYPOINT".toList, values := [rest], first := 1, last := 1,
                     source := "ENTRYPOINT ".toList ++ rest } : Instruction) = i
  have hkeyword : i.keyword? = some .entrypoint := by
    rw [← hi]
    exact Keyword.ofName?_entrypoint
  have hwritten : i.render = "ENTRYPOINT ".toList ++ ('[' :: Instruction.quoted rest ++ [']']) := by
    rw [Instruction.render_entrypoint hkeyword (by rw [← hi]), ← hi]
    rfl
  rw [text_of_singleton rfl (by rw [← hi]), hwritten]
  refine ⟨rfl, fun heq => ?_, parse_brackets_iff hn⟩
  have hlength := congrArg List.length (List.append_cancel_left heq)
  simp [Instruction.quoted] at hlength
  omega

/-- A command with quotes, which starts as an array does. -/
def quotedCommand : Text := "[ -f \"/a b\" ] && run".toList

theorem parse_shellEntrypoint_quotedCommand :
    ∃ d, (parse ("ENTRYPOINT ".toList ++ quotedCommand)).value = .ok d ∧
      d.text {} = "ENTRYPOINT [\"[ -f \"/a b\" ] && run\"]".toList ∧
      ¬ ∃ e, (parse (d.text {})).value = .ok e ∧
        e.instructions.map (·.values) = [[quotedCommand]] := by
  have htrim : Trimmed quotedCommand := by decide +kernel
  obtain ⟨d, hparse, -, hwritten⟩ := parse_shellEntrypoint htrim (by decide) (by decide)
    (by decide) (by decide) (by decide +kernel)
  obtain ⟨htext, -, hiff⟩ := hwritten {}
  exact ⟨d, hparse, htext, mt hiff.mp (by decide +kernel)⟩

/-- An entry point that is no array of strings is not written as it was read. -/
theorem exists_shellEntrypoint_ne :
    ∃ rest d, Trimmed rest ∧ rest ≠ [] ∧ '\n' ∉ rest ∧ rest.getLast? ≠ some defaultEscape ∧
      ¬ "--".toList <+: rest ∧ Json.parseTexts rest = none ∧
      (parse ("ENTRYPOINT ".toList ++ rest)).value = .ok d ∧
      ∀ options, d.text options ≠ "ENTRYPOINT ".toList ++ rest := by
  refine ⟨"echo hi".toList,
    (parse "ENTRYPOINT echo hi".toList).value.toOption.getD {}, by decide +kernel, by decide,
    by decide, by decide, by decide, by decide +kernel, by decide +kernel, ?_⟩
  rintro ⟨c⟩
  cases c <;> decide +kernel

end Document

end Dockerfile
