import Dockerfile.Instruction
import Dockerfile.Proofs.Json.Reader
import Dockerfile.Proofs.Json.Token
import Dockerfile.Proofs.Text.Line

/-!
# Arrays of strings

An array of strings is read back as its strings, also if a space stands behind each comma. Between
quotes that are put around it as it is, only a verbatim text is read back.

* `Json.parseTexts_eq_some_iff`: the tokens of an array of strings.
* `Json.parseTexts_quote`: strings with their quotes.
* `Json.parseTexts_quoted_iff`: one text between two quotes.
-/

namespace Dockerfile.Json

variable {t : Text} {ts : List Text}

theorem parseTexts_eq_some_iff :
    parseTexts t = some ts ↔ Token.lex t = some (ofTexts ts).tokens := by
  simp only [parseTexts, parse, Option.bind_eq_some_iff, Reader.ofTokens_eq_some_iff,
    texts?_eq_some_iff]
  constructor
  · rintro ⟨j, ⟨tokens, hlex, rfl⟩, rfl⟩
    exact hlex
  · intro hlex
    exact ⟨_, ⟨_, hlex, rfl⟩, rfl⟩

/-! ## Strings with their quotes -/

namespace Token

theorem lex_openArray (rest : Text) : lex ('[' :: rest) = (lex rest).map (.openArray :: ·) :=
  lex_symbol (by decide) (fun _ => rfl) rest

theorem lex_closeArray : lex [']'] = some [.closeArray] := by
  rw [lex_symbol (by decide) (fun _ => rfl)]
  simp [lex]

theorem lex_commaSpace (rest : Text) :
    lex (", ".toList ++ rest) = (lex rest).map (.comma :: ·) := by
  rw [← lex_blank (c := ' ') (by decide) rest]
  exact lex_symbol (c := ',') (by decide) (fun _ => rfl) (' ' :: rest)

theorem lex_quote (t rest : Text) :
    lex (quote t ++ rest) = (lex rest).map (.scalar (.string (some t)) :: ·) := by
  rw [quote, List.cons_append, List.cons_append, List.append_assoc, List.singleton_append,
    lex_cons (by decide)]
  simp [next?, Quoted.scan_written, Quoted.assemble_written]

/-- A space stands behind each comma. -/
theorem lex_quotes (ts : List Text) (rest : Text) :
    lex (Text.joinWith ", ".toList (ts.map quote) ++ rest) =
      (lex rest).map (itemTokens (ts.map ofText) ++ ·) := by
  match ts with
  | [] => simp [Text.joinWith, itemTokens]
  | [t] => exact lex_quote t rest
  | t :: u :: ts =>
    have ih := lex_quotes (u :: ts) rest
    rw [List.map_cons] at ih
    rw [List.map_cons, List.map_cons, Text.joinWith, List.append_assoc, List.append_assoc,
      lex_quote, lex_commaSpace, ih]
    simp [itemTokens, ofText, tokens, Function.comp_def]

/-- A text is verbatim if only its quotes and one more character stand around it. -/
theorem verbatim_of_lex {u : Text} {tokens : List Token} (htokens : tokens ≠ [])
    (h : lex ('"' :: u) = some (.scalar (.string (some t)) :: tokens))
    (hlength : u.length ≤ t.length + 2) : Verbatim t := by
  rw [lex_cons (by decide)] at h
  obtain ⟨⟨token, after⟩, hnext, hlex⟩ := Option.bind_eq_some_iff.mp h
  obtain ⟨more, hmore, heq⟩ := Option.map_eq_some_iff.mp hlex
  obtain ⟨rfl, rfl⟩ := List.cons_eq_cons.mp heq
  obtain ⟨⟨ps, rest⟩, hscan, hstring⟩ := Option.map_eq_some_iff.mp hnext
  obtain ⟨ht, rfl⟩ : Quoted.assemble ps = some t ∧ rest = after := by simpa using hstring
  have hafter : rest ≠ [] := by
    rintro rfl
    simp [lex, htokens.symm] at hmore
  have := List.length_pos_iff.mpr hafter
  exact (Quoted.verbatim_of_scan hscan ht (by omega)).1

end Token

/-- Strings with their quotes, as an array. -/
theorem parseTexts_quote (ts : List Text) :
    parseTexts ('[' :: Text.joinWith ", ".toList (ts.map quote) ++ [']']) = some ts := by
  rw [parseTexts_eq_some_iff, List.cons_append, Token.lex_openArray, Token.lex_quotes,
    Token.lex_closeArray]
  rfl

/-! ## Texts between quotes -/

theorem Verbatim.quote_eq (h : Verbatim t) : quote t = Instruction.quoted t := by
  rw [quote, h.flatMap_escapeChar, Instruction.quoted]

theorem parseTexts_quoted (h : ∀ t ∈ ts, Verbatim t) :
    parseTexts ('[' :: Text.joinWith ", ".toList (ts.map Instruction.quoted) ++ [']']) =
      some ts := by
  rw [← List.map_congr_left fun t ht => (h t ht).quote_eq]
  exact parseTexts_quote ts

/-- Only a verbatim text is read back from between quotes. -/
theorem parseTexts_quoted_iff :
    parseTexts ('[' :: Instruction.quoted t ++ [']']) = some [t] ↔ Verbatim t := by
  constructor
  · intro h
    rw [parseTexts_eq_some_iff, Instruction.quoted, List.cons_append, List.cons_append,
      List.cons_append, List.append_assoc, Token.lex_openArray] at h
    obtain ⟨tokens, hlex, htokens⟩ := Option.map_eq_some_iff.mp h
    obtain ⟨-, rfl⟩ := List.cons_eq_cons.mp htokens
    exact Token.verbatim_of_lex (by simp) hlex (by simp)
  · intro h
    exact parseTexts_quoted (List.forall_mem_singleton.mpr h)

end Dockerfile.Json
