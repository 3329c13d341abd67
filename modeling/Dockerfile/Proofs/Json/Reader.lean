import Dockerfile.Json.Reader

/-!
# Which tokens a value is read from

The reader keeps what it has read in its state, so that the tokens it has taken can be told from the
state. Hence a value is read from its own tokens and from no others.

* `Json.nestedRec`: induction over the parts of a value.
* `Json.tokens`: the tokens of a value.
* `Json.Reader.State.tokens`, `Json.Reader.tokens_of_step`: the tokens that lead to a state.
* `Json.Reader.foldlM_tokens`: the tokens of a value are read wherever a value may stand.
* `Json.Reader.ofTokens_eq_some_iff`: both directions together.
* `Json.texts?_eq_some_iff`: the arrays of strings.
-/

namespace Dockerfile.Json

/-- What holds of a value if it holds of its parts, holds of all values. -/
@[elab_as_elim]
theorem nestedRec {motive : Json → Prop} (scalar : ∀ s, motive (.scalar s))
    (array : ∀ items, (∀ j ∈ items, motive j) → motive (.array items))
    (object : ∀ members : List (Option Text × Json), (∀ m ∈ members, motive m.2) →
      motive (.object members)) (j : Json) : motive j :=
  match j with
  | .scalar s => scalar s
  | .array items => array items fun j _ => nestedRec scalar array object j
  | .object members => object members fun m _ => nestedRec scalar array object m.2
termination_by sizeOf j
decreasing_by
  · have := List.sizeOf_lt_of_mem ‹_ ∈ _›
    simp only [Json.array.sizeOf_spec]
    omega
  · have := List.sizeOf_lt_of_mem ‹_ ∈ _›
    cases m
    simp only [Json.object.sizeOf_spec, Prod.mk.sizeOf_spec] at *
    omega

/-! ## Tokens -/

mutual

/-- The tokens of a value. -/
def tokens : Json → List Token
  | .scalar s => [.scalar s]
  | .array items => .openArray :: (itemTokens items ++ [.closeArray])
  | .object members => .openObject :: (memberTokens members ++ [.closeObject])

/-- The tokens of the items of an array, with commas between them. -/
def itemTokens : List Json → List Token
  | [] => []
  | [j] => j.tokens
  | j :: k :: rest => j.tokens ++ .comma :: itemTokens (k :: rest)

/-- The tokens of the members of an object, with commas between them. -/
def memberTokens : List (Option Text × Json) → List Token
  | [] => []
  | [(key, j)] => .scalar (.string key) :: .colon :: j.tokens
  | (key, j) :: m :: rest =>
    .scalar (.string key) :: .colon :: (j.tokens ++ .comma :: memberTokens (m :: rest))

end

/-- The tokens of items with a further one to come. -/
def itemsBefore (items : List Json) : List Token := items.flatMap fun j => j.tokens ++ [.comma]

/-- The tokens of members with a further one to come. -/
def membersBefore (members : List (Option Text × Json)) : List Token :=
  members.flatMap fun m => .scalar (.string m.1) :: .colon :: (m.2.tokens ++ [.comma])

theorem itemTokens_concat (items : List Json) (j : Json) :
    itemTokens (items ++ [j]) = itemsBefore items ++ j.tokens := by
  induction items with
  | nil => simp [itemTokens, itemsBefore]
  | cons k items ih =>
    obtain ⟨i, rest, hcons⟩ := List.exists_cons_of_ne_nil (l := items ++ [j]) (by simp)
    rw [List.cons_append, hcons, itemTokens, ← hcons, ih]
    simp [itemsBefore]

theorem memberTokens_concat (members : List (Option Text × Json)) (key : Option Text) (j : Json) :
    memberTokens (members ++ [(key, j)]) =
      membersBefore members ++ .scalar (.string key) :: .colon :: j.tokens := by
  induction members with
  | nil => simp [memberTokens, membersBefore]
  | cons m members ih =>
    obtain ⟨other, rest, hcons⟩ :=
      List.exists_cons_of_ne_nil (l := members ++ [(key, j)]) (by simp)
    rw [List.cons_append, hcons, memberTokens, ← hcons, ih]
    simp [membersBefore]

theorem scalar_mem_itemTokens {s : Scalar} {items : List Json} :
    .scalar s ∈ itemTokens items ↔ ∃ j ∈ items, .scalar s ∈ j.tokens := by
  match items with
  | [] => simp [itemTokens]
  | [j] => simp [itemTokens]
  | j :: k :: items =>
    have ih : .scalar s ∈ itemTokens (k :: items) ↔ _ := scalar_mem_itemTokens
    simp [itemTokens, ih]

theorem scalar_mem_memberTokens {s : Scalar} {members : List (Option Text × Json)} :
    .scalar s ∈ memberTokens members ↔
      ∃ m ∈ members, s = .string m.1 ∨ .scalar s ∈ m.2.tokens := by
  match members with
  | [] => simp [memberTokens]
  | [m] => simp [memberTokens]
  | m :: n :: members =>
    have ih : .scalar s ∈ memberTokens (n :: members) ↔ _ := scalar_mem_memberTokens
    simp [memberTokens, ih, or_assoc]

namespace Reader

/-! ## What is read -/

/-- The tokens in front of the value that a container waits for. -/
def Frame.tokens : Frame → List Token
  | .array items => .openArray :: itemsBefore items.reverse
  | .object members key =>
    .openObject :: (membersBefore members.reverse ++ [.scalar (.string key), .colon])

/-- The tokens behind those of the open containers. -/
def Expect.tokens : Expect → List Token
  | .value => []
  | .itemOrEnd => [.openArray]
  | .keyOrEnd => [.openObject]
  | .key members => .openObject :: membersBefore members.reverse
  | .colon members name =>
    .openObject :: (membersBefore members.reverse ++ [.scalar (.string name)])
  | .after read => read.tokens

/-- The tokens that lead to the state. -/
def State.tokens (s : State) : List Token :=
  s.frames.reverse.flatMap Frame.tokens ++ s.expect.tokens

variable {s s' : State} {token : Token} {ts : List Token} {frames : List Frame}

theorem tokens_of_startValue (h : startValue frames token = some s) :
    s.tokens = frames.reverse.flatMap Frame.tokens ++ [token] := by
  unfold startValue at h
  split at h
  all_goals cases h
  all_goals simp [State.tokens, Expect.tokens, Json.tokens]

theorem tokens_of_startKey {members : List (Option Text × Json)}
    (h : startKey members frames token = some s) :
    s.tokens = frames.reverse.flatMap Frame.tokens ++
      .openObject :: (membersBefore members.reverse ++ [token]) := by
  unfold startKey at h
  split at h
  all_goals cases h
  simp [State.tokens, Expect.tokens]

/-- A step takes one token. -/
theorem tokens_of_step (h : step s token = some s') : s'.tokens = s.tokens ++ [token] := by
  unfold step at h
  split at h
  case h_1 frames token => simpa [State.tokens, Expect.tokens] using tokens_of_startValue h
  case h_3 frames token _ =>
    simpa [State.tokens, Expect.tokens, Frame.tokens, itemsBefore] using tokens_of_startValue h
  case h_5 frames token _ =>
    simpa [State.tokens, Expect.tokens, membersBefore] using tokens_of_startKey h
  case h_6 members frames token => simpa [State.tokens, Expect.tokens] using tokens_of_startKey h
  all_goals cases h
  case h_2 => simp [State.tokens, Expect.tokens, Json.tokens, itemTokens]
  case h_4 => simp [State.tokens, Expect.tokens, Json.tokens, memberTokens]
  case h_7 => simp [State.tokens, Expect.tokens, Frame.tokens]
  case h_8 => simp [State.tokens, Expect.tokens, Frame.tokens, itemsBefore]
  case h_9 => simp [State.tokens, Expect.tokens, Frame.tokens, Json.tokens, itemTokens_concat]
  case h_10 => simp [State.tokens, Expect.tokens, Frame.tokens, membersBefore]
  case h_11 => simp [State.tokens, Expect.tokens, Frame.tokens, Json.tokens, memberTokens_concat]

theorem tokens_of_foldlM (h : ts.foldlM step s = some s') : s'.tokens = s.tokens ++ ts := by
  induction ts generalizing s with
  | nil =>
    cases h
    simp
  | cons token ts ih =>
    obtain ⟨t, hstep, hrest⟩ := Option.bind_eq_some_iff.mp h
    rw [ih hrest, tokens_of_step hstep, List.append_assoc]
    rfl

/-! ## What can be read -/

/-- The tokens of the value are read wherever a value may stand. -/
def Readable (j : Json) : Prop :=
  ∀ frames, j.tokens.foldlM step ⟨.value, frames⟩ = some ⟨.after j, frames⟩

variable {items before : List Json} {members membersRead : List (Option Text × Json)}

/-- The first item of an array is read as any other. -/
theorem foldlM_itemOrEnd (hitems : items ≠ []) (rest : List Token) :
    (itemTokens items ++ rest).foldlM step ⟨.itemOrEnd, frames⟩ =
      (itemTokens items ++ rest).foldlM step ⟨.value, .array [] :: frames⟩ := by
  match items, hitems with
  | [j], _ => cases j <;> rfl
  | j :: _ :: _, _ => cases j <;> rfl

/-- The first member of an object is read as any other. -/
theorem foldlM_keyOrEnd (hmembers : members ≠ []) (rest : List Token) :
    (memberTokens members ++ rest).foldlM step ⟨.keyOrEnd, frames⟩ =
      (memberTokens members ++ rest).foldlM step ⟨.key [], frames⟩ := by
  match members, hmembers with
  | [_], _ => rfl
  | _ :: _ :: _, _ => rfl

theorem Readable.foldlM_append {j : Json} (hj : Readable j) (rest : List Token) :
    (j.tokens ++ rest).foldlM step ⟨.value, frames⟩ = rest.foldlM step ⟨.after j, frames⟩ := by
  rw [List.foldlM_append, hj frames]
  rfl

theorem Readable.foldlM_member {j : Json} (hj : Readable j) (key : Option Text)
    (rest : List Token) :
    (Token.scalar (.string key) :: .colon :: (j.tokens ++ rest)).foldlM step
        ⟨.key membersRead, frames⟩ =
      rest.foldlM step ⟨.after j, .object membersRead key :: frames⟩ := by
  rw [List.foldlM_cons]
  exact hj.foldlM_append rest

theorem foldlM_itemsBefore (hitems : ∀ j ∈ items, Readable j) (rest : List Token) :
    (itemsBefore items ++ rest).foldlM step ⟨.value, .array before :: frames⟩ =
      rest.foldlM step ⟨.value, .array (items.reverse ++ before) :: frames⟩ := by
  induction items generalizing before with
  | nil => rfl
  | cons j items ih =>
    obtain ⟨hj, hitems⟩ := List.forall_mem_cons.mp hitems
    rw [itemsBefore, List.flatMap_cons, List.append_assoc, List.append_assoc, hj.foldlM_append,
      List.reverse_cons, List.append_assoc]
    exact ih hitems

theorem foldlM_membersBefore (hmembers : ∀ m ∈ members, Readable m.2) (rest : List Token) :
    (membersBefore members ++ rest).foldlM step ⟨.key membersRead, frames⟩ =
      rest.foldlM step ⟨.key (members.reverse ++ membersRead), frames⟩ := by
  induction members generalizing membersRead with
  | nil => rfl
  | cons m members ih =>
    obtain ⟨hm, hmembers⟩ := List.forall_mem_cons.mp hmembers
    rw [membersBefore, List.flatMap_cons, List.cons_append, List.cons_append, List.cons_append,
      List.cons_append, List.append_assoc, List.append_assoc, hm.foldlM_member, List.reverse_cons,
      List.append_assoc]
    exact ih hmembers

theorem readable_array (hitems : ∀ j ∈ items, Readable j) : Readable (.array items) := by
  intro frames
  rw [Json.tokens, List.foldlM_cons]
  change (itemTokens items ++ [Token.closeArray]).foldlM step ⟨.itemOrEnd, frames⟩ = _
  rcases items.eq_nil_or_concat with rfl | ⟨init, j, rfl⟩
  · rfl
  · rw [List.concat_eq_append] at hitems ⊢
    obtain ⟨hinit, hj⟩ := List.forall_mem_append.mp hitems
    rw [foldlM_itemOrEnd (by simp), itemTokens_concat, List.append_assoc, foldlM_itemsBefore hinit,
      (List.forall_mem_singleton.mp hj).foldlM_append]
    simp [step]

theorem readable_object (hmembers : ∀ m ∈ members, Readable m.2) : Readable (.object members) := by
  intro frames
  rw [Json.tokens, List.foldlM_cons]
  change (memberTokens members ++ [Token.closeObject]).foldlM step ⟨.keyOrEnd, frames⟩ = _
  rcases members.eq_nil_or_concat with rfl | ⟨init, ⟨key, j⟩, rfl⟩
  · rfl
  · rw [List.concat_eq_append] at hmembers ⊢
    obtain ⟨hinit, hj⟩ := List.forall_mem_append.mp hmembers
    rw [foldlM_keyOrEnd (by simp), memberTokens_concat, List.append_assoc,
      foldlM_membersBefore hinit]
    have hj : Readable j := hj (key, j) (List.mem_singleton_self _)
    rw [List.cons_append, List.cons_append, hj.foldlM_member]
    simp [step]

/-- The tokens of any value are read. -/
theorem readable (j : Json) : Readable j := by
  induction j using Json.nestedRec with
  | scalar s => exact fun _ => rfl
  | array items ih => exact readable_array ih
  | object members ih => exact readable_object ih

/-- A text is read as a value if its tokens are those of the value. -/
theorem ofTokens_eq_some_iff {j : Json} : ofTokens ts = some j ↔ ts = j.tokens := by
  constructor
  · intro h
    obtain ⟨⟨expect, frames⟩, hrun, hvalue⟩ := Option.bind_eq_some_iff.mp h
    unfold State.value? at hvalue
    split at hvalue
    next heq =>
      cases heq
      cases hvalue
      simpa [State.tokens, Expect.tokens] using (tokens_of_foldlM hrun).symm
    next => cases hvalue
  · rintro rfl
    rw [ofTokens, readable j]
    rfl

end Reader

/-! ## Arrays of strings -/

theorem text?_eq_some_iff {j : Json} {t : Text} : j.text? = some t ↔ j = ofText t := by
  unfold text? ofText
  split
  · simp
  · next hne =>
    constructor
    · intro h
      cases h
    · rintro rfl
      exact (hne (some t) rfl).elim

theorem texts?_eq_some_iff {j : Json} {ts : List Text} : j.texts? = some ts ↔ j = ofTexts ts := by
  match j with
  | .scalar _ | .object _ => simp [texts?, ofTexts]
  | .array items =>
    simp only [texts?, ofTexts, array.injEq]
    induction items generalizing ts with
    | nil => cases ts <;> simp
    | cons j items ih =>
      rw [List.mapM_cons]
      simp only [Option.bind_eq_bind, Option.bind_eq_some_iff, text?_eq_some_iff, ih]
      cases ts with
      | nil => simp
      | cons t ts => simp

end Dockerfile.Json
