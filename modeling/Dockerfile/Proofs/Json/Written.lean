import Dockerfile.Json.Writer
import Dockerfile.Proofs.Json.Number
import Dockerfile.Proofs.Json.Texts

/-!
# Values that are read back

A value is read back from its compact text if its numbers are spelt as numbers and its strings stand
for texts.

* `Json.Legible`: these values.
* `Json.Token.lexes`: their tokens are read from their texts, whatever follows.
* `Json.parse_of_legible`: they are read back.
-/

namespace Dockerfile.Json

/-- The scalar is read back: a number is spelt as one, and a string stands for a text. -/
def Scalar.Legible : Scalar → Prop
  | .number literal => Number.scan literal = some (literal, [])
  | .string t => t.isSome
  | .null | .bool _ => True

/-- All scalars of the value are read back, keys included. -/
def Legible (j : Json) : Prop := ∀ s, Token.scalar s ∈ j.tokens → s.Legible

theorem legible_scalar {s : Scalar} : Legible (.scalar s) ↔ s.Legible := by
  simp [Legible, tokens]

theorem legible_array {items : List Json} : Legible (.array items) ↔ ∀ j ∈ items, j.Legible := by
  simp only [Legible, tokens, List.mem_cons, List.mem_append, reduceCtorEq, List.not_mem_nil,
    false_or, or_false, scalar_mem_itemTokens]
  constructor
  · exact fun h j hj s hs => h s ⟨j, hj, hs⟩
  · rintro h s ⟨j, hj, hs⟩
    exact h j hj s hs

theorem legible_object {members : List (Option Text × Json)} :
    Legible (.object members) ↔ ∀ m ∈ members, m.1.isSome ∧ m.2.Legible := by
  simp only [Legible, tokens, List.mem_cons, List.mem_append, reduceCtorEq, List.not_mem_nil,
    false_or, or_false, scalar_mem_memberTokens]
  constructor
  · exact fun h m hm => ⟨h _ ⟨m, hm, .inl rfl⟩, fun s hs => h s ⟨m, hm, .inr hs⟩⟩
  · rintro h s ⟨m, hm, rfl | hs⟩
    · exact (h m hm).1
    · exact (h m hm).2 s hs

namespace Token

variable {rest : Text} {c : Char}

/-- Nothing follows, or one of the tokens that may stand behind a value. -/
def Behind (rest : Text) : Prop := ∀ c ∈ rest.head?, c = ',' ∨ c = ']' ∨ c = '\x7d'

theorem Behind.noPart (h : Behind rest) : Number.NoPart rest := fun c hc => by
  rcases h c hc with rfl | rfl | rfl <;> decide

theorem lex_number {literal : Text} (h : Number.scan literal = some (literal, []))
    (hrest : Behind rest) :
    lex (literal ++ rest) = (lex rest).map (.scalar (.number literal) :: ·) := by
  obtain ⟨c, t, rfl⟩ := List.exists_cons_of_ne_nil (Number.scan_append h).1
  have hscan := Number.scan_append_of_noPart h hrest.noPart
  rw [List.cons_append] at hscan ⊢
  have hhead := Number.head_of_scan h
  have hnext : next? c (t ++ rest) = some (.scalar (.number (c :: t)), rest) := by
    unfold next?
    split
    case h_11 => rw [hscan]; rfl
    all_goals rcases hhead with hc | hc <;> exact absurd hc (by decide)
  have hblank : isBlank c = false := by
    simp only [isBlank, Bool.or_eq_false_iff, beq_eq_false_iff_ne]
    rcases hhead with rfl | hc
    · decide
    · refine ⟨⟨⟨?_, ?_⟩, ?_⟩, ?_⟩ <;> rintro rfl <;> cases hc
  rw [lex_cons hblank, hnext]
  rfl

theorem lex_scalar {s : Scalar} (h : s.Legible) (hrest : Behind rest) :
    lex (s.render ++ rest) = (lex rest).map (.scalar s :: ·) := by
  match s, h with
  | .null, _ | .bool true, _ | .bool false, _ =>
    refine (lex_cons (by decide) _).trans ?_
    rfl
  | .number literal, h => exact lex_number h hrest
  | .string (some t), _ => exact lex_quote t rest

/-- The tokens of the value are read from its text wherever it may stand. -/
def Lexes (j : Json) : Prop :=
  ∀ rest, Behind rest → lex (j.render ++ rest) = (lex rest).map (j.tokens ++ ·)

theorem behind_cons {rest : Text} {c : Char} (h : c = ',' ∨ c = ']' ∨ c = '\x7d') :
    Behind (c :: rest) := by
  simpa [Behind] using h

theorem lex_comma (rest : Text) : lex (',' :: rest) = (lex rest).map (.comma :: ·) :=
  lex_symbol (by decide) (fun _ => rfl) rest

theorem lex_items {items : List Json} (hitems : ∀ j ∈ items, Lexes j) (hrest : Behind rest) :
    lex (renderItems items ++ rest) = (lex rest).map (itemTokens items ++ ·) := by
  match items with
  | [] => simp [renderItems, itemTokens]
  | [j] => exact hitems j List.mem_cons_self rest hrest
  | j :: k :: items =>
    obtain ⟨hj, hitems⟩ := List.forall_mem_cons.mp hitems
    rw [renderItems, List.append_assoc, List.cons_append, hj _ (behind_cons (.inl rfl)), lex_comma,
      lex_items hitems hrest]
    simp [itemTokens, Function.comp_def]

theorem lex_member {key : Option Text} {j : Json} (hkey : key.isSome) (hj : Lexes j)
    (hrest : Behind rest) :
    lex ((Scalar.string key).render ++ ':' :: (j.render ++ rest)) =
      (lex rest).map fun ts => .scalar (.string key) :: .colon :: (j.tokens ++ ts) := by
  obtain ⟨t, rfl⟩ := Option.isSome_iff_exists.mp hkey
  rw [Scalar.render, lex_quote, lex_symbol (by decide) (fun _ => rfl), hj rest hrest]
  simp [Function.comp_def]

theorem lex_members {members : List (Option Text × Json)}
    (hmembers : ∀ m ∈ members, m.1.isSome ∧ Lexes m.2) (hrest : Behind rest) :
    lex (renderMembers members ++ rest) = (lex rest).map (memberTokens members ++ ·) := by
  match members with
  | [] => simp [renderMembers, memberTokens]
  | [(key, j)] =>
    obtain ⟨hkey, hj⟩ := hmembers (key, j) List.mem_cons_self
    rw [renderMembers, List.append_assoc, List.cons_append, lex_member hkey hj hrest]
    rfl
  | (key, j) :: m :: members =>
    obtain ⟨⟨hkey, hj⟩, hmembers⟩ := List.forall_mem_cons.mp hmembers
    have hcut : renderMembers ((key, j) :: m :: members) ++ rest =
        (Scalar.string key).render ++ ':' :: (j.render ++
          ',' :: (renderMembers (m :: members) ++ rest)) := by
      simp [renderMembers]
    rw [hcut, lex_member hkey hj (behind_cons (.inl rfl)), lex_comma, lex_members hmembers hrest]
    simp [memberTokens, Function.comp_def]

theorem lexes {j : Json} (h : j.Legible) : Lexes j := by
  induction j using Json.nestedRec with
  | scalar s => exact fun rest hrest => lex_scalar (legible_scalar.mp h) hrest
  | array items ih =>
    intro rest _
    have hitems := fun j hj => ih j hj (legible_array.mp h j hj)
    rw [Json.render, List.cons_append, List.cons_append, List.append_assoc, List.singleton_append,
      lex_openArray, lex_items hitems (behind_cons (.inr (.inl rfl))),
      lex_symbol (by decide) (fun _ => rfl)]
    simp [tokens, Function.comp_def]
  | object members ih =>
    intro rest _
    have hmembers := fun m hm =>
      (legible_object.mp h m hm).imp_right (ih m hm)
    rw [Json.render, List.cons_append, List.cons_append, List.append_assoc, List.singleton_append,
      lex_symbol (by decide) (fun _ => rfl),
      lex_members hmembers (behind_cons (.inr (.inr rfl))),
      lex_symbol (by decide) (fun _ => rfl)]
    simp [tokens, Function.comp_def]

end Token

/-- A legible value is read back from its compact text. -/
theorem parse_of_legible {j : Json} (h : j.Legible) : parse j.render = some j := by
  have hlex := Token.lexes h [] (by simp [Token.Behind])
  rw [List.append_nil, Token.lex, Option.map_some, List.append_nil] at hlex
  rw [parse, hlex]
  exact Reader.ofTokens_eq_some_iff.mpr rfl

end Dockerfile.Json
