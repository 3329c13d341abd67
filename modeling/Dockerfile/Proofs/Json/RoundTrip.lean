import Dockerfile.Json.Codec
import Dockerfile.Proofs.Json.Written
import Mathlib.Data.List.Nodup
import Mathlib.Data.Option.Basic

/-!
# Records are read back

A record is read back from its own JSON form and from any other object with the same members, in any
order and among members with other names.

* `Json.Extends`: such objects.
* `Json.fields?_of_extends`: they have the values of the record.
* `Json.roundTrips`: instructions, images and options are read back.
-/

namespace Dockerfile

namespace Json

/-- The second object has the members of the first one in any order, and further ones whose names
are texts other than those of the first one. -/
def Extends (j other : Json) : Prop :=
  ∃ members extra others, j = .object members ∧ other = .object others ∧
    others.Perm (members ++ extra) ∧
    ∀ m ∈ extra, m.1.isSome ∧ m.1 ∉ members.map Prod.fst

theorem Extends.refl (members : List (Option Text × Json)) :
    Extends (.object members) (.object members) :=
  ⟨members, [], members, rfl, rfl, by simp, by simp⟩

/-! ## Fields -/

section Members

variable {α β : Type} [BEq α] [LawfulBEq α] {members extra others : List (α × β)} {a : α} {b : β}

/-- The only value of a key is found. -/
theorem lookup_eq_some (hmem : (a, b) ∈ members) (honly : ∀ c, (a, c) ∈ members → c = b) :
    members.lookup a = some b := by
  induction members with
  | nil => cases hmem
  | cons p members ih =>
    obtain ⟨k, c⟩ := p
    by_cases hk : a = k
    · subst hk
      rw [List.lookup_cons_self, honly c List.mem_cons_self]
    · have hbeq : (a == k) = false := by simpa using hk
      rw [List.lookup_cons, hbeq]
      refine ih ?_ fun c hc => honly c (List.mem_cons_of_mem _ hc)
      rcases List.mem_cons.mp hmem with heq | hmem
      · exact absurd (congrArg Prod.fst heq) hk
      · exact hmem

variable (hnodup : (members.map Prod.fst).Nodup) (hperm : others.Perm (members ++ extra))
  (hextra : ∀ m ∈ extra, m.1 ∉ members.map Prod.fst)

include hnodup hperm hextra

/-- Order and other keys do not matter. -/
theorem lookup_of_perm (hmem : (a, b) ∈ members) : others.lookup a = some b := by
  refine lookup_eq_some (hperm.mem_iff.mpr (List.mem_append_left _ hmem)) fun c hc => ?_
  rcases List.mem_append.mp (hperm.mem_iff.mp hc) with hc | hc
  · exact congrArg Prod.snd (List.inj_on_of_nodup_map hnodup hc hmem rfl)
  · exact absurd (List.mem_map_of_mem (f := Prod.fst) hmem) (hextra (a, c) hc)

theorem count_of_perm (ha : a ∈ members.map Prod.fst) : (others.map Prod.fst).count a = 1 := by
  have hnone : (extra.map Prod.fst).count a = 0 := by
    refine List.count_eq_zero.mpr fun hmem => ?_
    obtain ⟨m, hm, rfl⟩ := List.mem_map.mp hmem
    exact hextra m hm ha
  rw [(hperm.map _).count_eq, List.map_append, List.count_append, hnone, Nat.add_zero]
  exact List.count_eq_one_of_mem hnodup ha

end Members

variable {names : List Text} {values : List Json} {j : Json}

theorem hasKeys_of_perm {members extra others : List (Option Text × Json)} (hnames : names.Nodup)
    (hkeys : members.map Prod.fst = names.map some) (hperm : others.Perm (members ++ extra))
    (hextra : ∀ m ∈ extra, m.1.isSome ∧ m.1 ∉ members.map Prod.fst) : hasKeys names others := by
  have hnodup : (members.map Prod.fst).Nodup := by
    rw [hkeys]
    exact hnames.map (Option.some_injective _)
  rw [hasKeys, Bool.and_eq_true, List.all_eq_true, List.all_eq_true]
  refine ⟨fun m hm => ?_, fun name hname => decide_eq_true (Nat.le_of_eq ?_)⟩
  · rcases List.mem_append.mp (hperm.mem_iff.mp hm) with hm | hm
    · have hkey := List.mem_map_of_mem (f := Prod.fst) hm
      rw [hkeys] at hkey
      obtain ⟨name, -, hname⟩ := List.mem_map.mp hkey
      rw [← hname]
      rfl
    · exact (hextra m hm).1
  · refine count_of_perm hnodup hperm (fun m hm => (hextra m hm).2) ?_
    rw [hkeys]
    exact List.mem_map_of_mem hname

/-- The members of a record, in any order and among others, give the values of its fields. -/
theorem fields?_of_extends (hnames : names.Nodup) (hlength : values.length = names.length)
    (short : Bool) (h : (record names values).Extends j) :
    j.fields? names short = some (values.map some) := by
  obtain ⟨members, extra, others, hrecord, rfl, hperm, hextra⟩ := h
  have hmembers : members = (names.map some).zip values := (object.inj hrecord).symm
  have hkeys : members.map Prod.fst = names.map some := by
    rw [hmembers]
    exact List.map_fst_zip (by simp [hlength])
  have hnodup : (members.map Prod.fst).Nodup := by
    rw [hkeys]
    exact hnames.map (Option.some_injective _)
  have hlookup : ∀ m ∈ members, others.lookup m.1 = some m.2 := fun m hm =>
    lookup_of_perm hnodup hperm (fun m hm => (hextra m hm).2) hm
  have hvalues : members.map Prod.snd = values := by
    rw [hmembers]
    exact List.map_snd_zip (by simp [hlength])
  rw [fields?, if_pos (hasKeys_of_perm hnames hkeys hperm hextra)]
  calc some (names.map fun name => others.lookup (some name))
    _ = some ((members.map Prod.fst).map (List.lookup · others)) := by rw [hkeys, List.map_map]; rfl
    _ = some ((members.map Prod.snd).map some) := by
      rw [List.map_map, List.map_map]
      exact congrArg some (List.map_congr_left hlookup)
    _ = some (values.map some) := by rw [hvalues]

/-! ## Values that are read back -/

@[simp] theorem text?_ofText (t : Text) : (ofText t).text? = some t := rfl

@[simp] theorem texts?_ofTexts (ts : List Text) : (ofTexts ts).texts? = some ts :=
  texts?_eq_some_iff.mpr rfl

@[simp] theorem optionalField?_ofText? (t : Option Text) :
    optionalField? (some (ofText? t)) = some t := by
  cases t <;> rfl

theorem legible_ofText (t : Text) : (ofText t).Legible := legible_scalar.mpr rfl

theorem legible_ofText? (t : Option Text) : (ofText? t).Legible := by
  cases t with
  | none => exact legible_scalar.mpr trivial
  | some t => exact legible_ofText t

theorem legible_ofTexts (ts : List Text) : (ofTexts ts).Legible :=
  legible_array.mpr (List.forall_mem_map.mpr fun t _ => legible_ofText t)

theorem legible_ofNat (n : Nat) : (ofNat n).Legible := legible_scalar.mpr (Number.scan_ofNat n)

theorem legible_record (h : ∀ v ∈ values, v.Legible) : (record names values).Legible := by
  refine legible_object.mpr fun ⟨key, v⟩ hm => ?_
  obtain ⟨hkey, hv⟩ := List.of_mem_zip hm
  obtain ⟨name, -, rfl⟩ := List.mem_map.mp hkey
  exact ⟨rfl, h v hv⟩

/-! ## Records -/

/-- The record is read back from its compact text, and from any text of an object that has the
members of its JSON form. -/
def RoundTrips {α : Type} (toJson : α → Json) (ofJson? : Json → Option α) (a : α) : Prop :=
  (parse (toJson a).render).bind ofJson? = some a ∧
    ∀ text j, parse text = some j → (toJson a).Extends j → (parse text).bind ofJson? = some a

theorem roundTrips_of_extends {α : Type} {toJson : α → Json} {ofJson? : Json → Option α} {a : α}
    (hform : ∃ names values, toJson a = record names values ∧ ∀ v ∈ values, v.Legible)
    (h : ∀ j, (toJson a).Extends j → ofJson? j = some a) : RoundTrips toJson ofJson? a := by
  obtain ⟨names, values, hrecord, hvalues⟩ := hform
  refine ⟨?_, fun text j htext hj => by rw [htext, Option.bind_some, h j hj]⟩
  rw [parse_of_legible (by rw [hrecord]; exact legible_record hvalues), Option.bind_some]
  refine h _ ?_
  rw [hrecord]
  exact Extends.refl _

theorem roundTrips_instruction (i : Instruction) (hfirst : i.first < UInt64.size)
    (hlast : i.last < UInt64.size) : RoundTrips Instruction.toJson Instruction.ofJson? i := by
  refine roundTrips_of_extends ⟨_, _, rfl, ?_⟩ fun j hj => ?_
  · simp [legible_ofText, legible_ofTexts, legible_ofNat]
  · rw [Instruction.ofJson?, fields?_of_extends (by decide) rfl false hj]
    simp [nat64?_ofNat hfirst, nat64?_ofNat hlast]

theorem roundTrips_image (image : Image) : RoundTrips Image.toJson Image.ofJson? image := by
  refine roundTrips_of_extends ⟨_, _, rfl, ?_⟩ fun j hj => ?_
  · simp [legible_ofText, legible_ofText?]
  · rw [Image.ofJson?, fields?_of_extends (by decide) rfl false hj]
    simp

theorem roundTrips_readOptions (options : ReadOptions) :
    RoundTrips ReadOptions.toJson ReadOptions.ofJson? options := by
  refine roundTrips_of_extends ⟨_, _, rfl, ?_⟩ fun j hj => ?_
  · simp [legible_ofText]
  · rw [ReadOptions.ofJson?, fields?_of_extends (by decide) rfl true hj]
    rfl

theorem roundTrips_renderOptions (options : RenderOptions) :
    RoundTrips RenderOptions.toJson RenderOptions.ofJson? options := by
  refine roundTrips_of_extends ⟨_, _, rfl, ?_⟩ fun j hj => ?_
  · simp [legible_ofText]
  · rw [RenderOptions.ofJson?, fields?_of_extends (by decide) rfl true hj]
    obtain ⟨continuation⟩ := options
    cases continuation <;> rfl

/-- Instructions whose lines have numbers of 64 bits, images and options are read back. -/
theorem roundTrips :
    (∀ i : Instruction, i.first < UInt64.size → i.last < UInt64.size →
      RoundTrips Instruction.toJson Instruction.ofJson? i) ∧
    (∀ image : Image, RoundTrips Image.toJson Image.ofJson? image) ∧
    (∀ options : ReadOptions, RoundTrips ReadOptions.toJson ReadOptions.ofJson? options) ∧
    ∀ options : RenderOptions, RoundTrips RenderOptions.toJson RenderOptions.ofJson? options :=
  ⟨roundTrips_instruction, roundTrips_image, roundTrips_readOptions, roundTrips_renderOptions⟩

/-- An instruction with a quote, a control character and the largest number in it. -/
def escapedInstruction : Instruction :=
  { name := "run".toList, flags := ["--a".toList, []], values := ["b\"\n\x01é".toList], first := 0,
    last := 18446744073709551615, source := "\\".toList }

/-- A member with another name. Its value has a string that stands for no text. -/
def otherMember : Option Text × Json :=
  (some "note".toList,
    .array [.scalar (.number "-1.50e+3".toList), .scalar (.string none), .object []])

/-- The JSON form of the instruction from back to front, below another member. -/
def reversedText : Text :=
  "\x7b \"note\": [-1.50e+3, \"\\ud800\", \x7b\x7d],
  \"original\": \"\\\\\",
  \"end_line\": 18446744073709551615,
  \"start_line\": 0,
  \"values\": [\"b\\\"\\u000A\\u0001\\u00e9\"],
  \"flags\": [\"--a\", \"\"],
  \"name\": \"run\" \x7d".toList

theorem roundTrips_reversedText :
    (parse reversedText).bind Instruction.ofJson? = some escapedInstruction := by
  let members := (Instruction.fieldNames.map some).zip
    [ofText escapedInstruction.name, ofTexts escapedInstruction.flags,
      ofTexts escapedInstruction.values, ofNat escapedInstruction.first,
      ofNat escapedInstruction.last, ofText escapedInstruction.source]
  have htext : parse reversedText = some (.object (otherMember :: members.reverse)) := by
    have hlex : Token.lex reversedText =
        some (tokens (.object (otherMember :: members.reverse))) := by
      decide +kernel
    rw [parse, hlex, Option.bind_some]
    exact Reader.ofTokens_eq_some_iff.mpr rfl
  have hperm : (otherMember :: members.reverse).Perm (members ++ [otherMember]) :=
    (members.reverse_perm.cons otherMember).trans (List.perm_append_singleton ..).symm
  exact (roundTrips.1 escapedInstruction (by decide) (by decide)).2 reversedText _ htext
    ⟨members, [otherMember], _, rfl, rfl, hperm, by decide⟩

end Json

end Dockerfile
