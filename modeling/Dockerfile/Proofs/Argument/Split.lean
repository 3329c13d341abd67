import Dockerfile.Argument
import Dockerfile.Proofs.Text.Trim

/-!
# Arguments are stable

Splitting a text finds arguments in it with only white space between them, and splitting them again
after they have been written with single spaces finds the same arguments.

* `Argument.IsArgument`, `Argument.Closed`: what is read as one argument, and after which ones white
  space ends it.
* `Argument.next?_eq_some`, `Argument.next?_append`: where the first argument stands.
* `Argument.Bare`, `Argument.Bare.isArgument_iff`: texts without quotes and backslashes.
* `Argument.separable_split`, `Argument.split_spaced`: the arguments of a text can be written with
  single spaces.
* `Argument.spanFlags_spaced`: so can leading flags.
-/

namespace Dockerfile.Argument

open Text

variable {t u r a : Text} {m : Mode} {c : Char}

/-- The mode after the characters of a text. -/
def Mode.after (m : Mode) (t : Text) : Mode := t.foldl Mode.step m

theorem Mode.endsAt_iff : m.endsAt c ↔ m = {} ∧ isSpace c := by
  simp [Mode.endsAt]

/-- A text that is read as one argument. -/
structure IsArgument (t : Text) : Prop where
  ne_nil : t ≠ []
  noLead : NoLead t
  scan_eq : scan {} t = (t, [])

/-- At the end of the text no quote is open and no escape is pending. -/
def Closed (t : Text) : Prop := Mode.after {} t = {}

/-! ## Scanning -/

theorem scan_cons_of_not_endsAt (h : m.endsAt c = false) :
    scan m (c :: t) = (c :: (scan (m.step c) t).1, (scan (m.step c) t).2) := by
  simp [scan, h]

theorem scan_cons_eq_iff :
    scan m (c :: t) = (c :: t, []) ↔ m.endsAt c = false ∧ scan (m.step c) t = (t, []) := by
  by_cases hc : m.endsAt c
  · simp [scan, hc]
  · rw [Bool.not_eq_true] at hc
    simp [scan_cons_of_not_endsAt hc, hc, Prod.ext_iff]

/-- A scan that reaches the end of a text goes on behind it. -/
theorem scan_append_of_scan (h : scan m t = (t, [])) :
    scan m (t ++ u) = (t ++ (scan (m.after t) u).1, (scan (m.after t) u).2) := by
  induction t generalizing m with
  | nil => rfl
  | cons c t ih =>
    obtain ⟨hc, ht⟩ := scan_cons_eq_iff.mp h
    rw [List.cons_append, scan_cons_of_not_endsAt hc, ih ht]
    rfl

/-- A scan stops at a character that ends the argument, and would not have stopped before. -/
theorem scan_cut (h : scan m t = (a, r)) :
    scan m a = (a, []) ∧ ∀ c ∈ r.head?, (m.after a).endsAt c := by
  induction t generalizing m a with
  | nil =>
    cases h
    simp [scan]
  | cons d t ih =>
    by_cases hd : m.endsAt d
    · rw [scan, if_pos hd] at h
      cases h
      simpa [scan, Mode.after] using hd
    · rw [Bool.not_eq_true] at hd
      rw [scan_cons_of_not_endsAt hd, Prod.mk.injEq] at h
      obtain ⟨rfl, hr⟩ := h
      obtain ⟨hscan, hends⟩ := ih (m := m.step d) (a := (scan (m.step d) t).1) (Prod.ext rfl hr)
      refine ⟨?_, hends⟩
      rw [scan_cons_of_not_endsAt hd, hscan]

/-! ## The first argument -/

theorem next?_trimStart (t : Text) : next? (trimStart t) = next? t := by
  rw [next?, next?, (noLead_trimStart t).trimStart_eq]

theorem next?_eq_none_iff : next? t = none ↔ Blank t := by
  constructor
  · intro h
    apply blank_of_trimStart_eq_nil
    unfold next? at h
    split at h
    · assumption
    · cases h
  · intro h
    rw [next?, trimStart_of_blank h]

/-- The first argument is one, and white space stands between it and what follows. -/
theorem next?_eq_some (h : next? t = some (a, r)) :
    IsArgument a ∧ NoLead r ∧ ∃ lead sep, Blank lead ∧ Blank sep ∧ t = lead ++ (a ++ (sep ++ r)) ∧
      (sep ++ r ≠ [] → sep ≠ [] ∧ Closed a) := by
  unfold next? at h
  split at h
  · cases h
  · rename_i c rest hc
    simp only [Option.some.injEq, Prod.mk.injEq] at h
    obtain ⟨ha, rfl⟩ := h
    have hspace : isSpace c = false := isSpace_of_trimStart hc
    obtain ⟨lead, hlead, ht⟩ := exists_trimStart t
    obtain ⟨sep, hsep, hrest⟩ := exists_trimStart (scan {} (c :: rest)).2
    obtain ⟨hscan, hends⟩ := scan_cut (m := {}) (t := c :: rest) (a := a) (Prod.ext ha rfl)
    have happ := scan_append {} (c :: rest)
    rw [ha] at happ
    have hne : a ≠ [] := by
      rw [← ha, scan_cons_of_not_endsAt (by simp [Mode.endsAt, hspace])]
      simp
    refine ⟨⟨hne, ?_, hscan⟩, noLead_trimStart _, lead, sep, hlead, hsep, ?_, fun hnil => ?_⟩
    · cases a with
      | nil => simp
      | cons d a =>
        obtain ⟨rfl, -⟩ := List.cons.inj happ
        simpa using hspace
    · rw [← hrest, happ, ← hc, ← ht]
    · rw [← hrest] at hnil
      cases hr : (scan {} (c :: rest)).2 with
      | nil => contradiction
      | cons d more =>
        have hd := Mode.endsAt_iff.mp (hends d (by simp [hr]))
        refine ⟨?_, hd.1⟩
        rintro rfl
        have hlead := noLead_trimStart (scan {} (c :: rest)).2
        rw [List.nil_append] at hrest
        rw [← hrest, hr, noLead_cons, hd.2] at hlead
        cases hlead

/-- In a text without trailing white space, the first argument or what follows it is the end. -/
theorem next?_suffix (ht : NoTrail t) (h : next? t = some (a, r)) :
    NoTrail r ∧ r <:+ t ∧ (r = [] → a <:+ t) := by
  obtain ⟨-, -, lead, sep, -, hsep, rfl, -⟩ := next?_eq_some h
  have hr : NoTrail (sep ++ r) := NoTrail.of_append (t := lead ++ a) (by simpa using ht)
  refine ⟨hr.of_append, ?_, ?_⟩
  · simpa using List.suffix_append (lead ++ (a ++ sep)) r
  · rintro rfl
    rw [List.append_nil] at hr
    rw [hr.eq_nil_of_blank hsep, List.append_nil, List.append_nil]
    exact List.suffix_append lead a

/-- In a text without leading white space, the first argument is the start. -/
theorem next?_prefix (ht : NoLead t) (h : next? t = some (a, r)) : a <+: t := by
  unfold next? at h
  split at h
  · cases h
  · next c rest hc =>
    obtain ⟨rfl, -⟩ := by simpa using h
    rw [← hc, ht.trimStart_eq]
    exact ⟨_, scan_append {} t⟩

theorem mem_of_next?_some (h : next? t = some (a, r)) : (∀ c ∈ a, c ∈ t) ∧ ∀ c ∈ r, c ∈ t := by
  obtain ⟨-, -, lead, sep, -, -, rfl, -⟩ := next?_eq_some h
  constructor
  · intro c hc
    simp [hc]
  · intro c hc
    simp [hc]

/-- An argument is read up to white space, if it is closed, or up to the end of the text. -/
theorem next?_append (ha : IsArgument a) (hr : ∀ c ∈ r.head?, Closed a ∧ isSpace c) :
    next? (' ' :: (a ++ r)) = some (a, trimStart r) := by
  have htrim : trimStart (' ' :: (a ++ r)) = a ++ r := by
    rw [trimStart_space, (ha.noLead.append ha.ne_nil).trimStart_eq]
  have hscan : scan {} (a ++ r) = (a, r) := by
    rw [scan_append_of_scan ha.scan_eq]
    cases r with
    | nil => simp [scan]
    | cons c r =>
      obtain ⟨hclosed, hc⟩ := hr c rfl
      rw [scan, if_pos (Mode.endsAt_iff.mpr ⟨hclosed, hc⟩), List.append_nil]
  obtain ⟨c, rest, hcons⟩ := List.exists_cons_of_ne_nil (l := a ++ r) (by simp [ha.ne_nil])
  rw [next?, htrim, hcons]
  simp only
  rw [← hcons, hscan]

/-! ## Texts without quotes -/

/-- No character of the text is a quote or a backslash. -/
def Bare (t : Text) : Prop := ∀ c ∈ t, c ≠ '"' ∧ c ≠ '\'' ∧ c ≠ '\\'

instance : Decidable (Bare t) :=
  List.decidableBAll (p := fun c => c ≠ '"' ∧ c ≠ '\'' ∧ c ≠ '\\') t

theorem Mode.step_of_bare (h : c ≠ '"' ∧ c ≠ '\'' ∧ c ≠ '\\') : Mode.step {} c = {} := by
  simp [Mode.step, h]

theorem Bare.closed (h : Bare t) : Closed t := by
  induction t with
  | nil => rfl
  | cons c t ih =>
    obtain ⟨hc, ht⟩ := List.forall_mem_cons.mp h
    rw [Closed, Mode.after, List.foldl_cons, Mode.step_of_bare hc]
    exact ih ht

theorem Bare.scan_eq_iff (h : Bare t) : scan {} t = (t, []) ↔ ∀ c ∈ t, isSpace c = false := by
  induction t with
  | nil => simp [scan]
  | cons c t ih =>
    obtain ⟨hc, ht⟩ := List.forall_mem_cons.mp h
    rw [List.forall_mem_cons, ← ih ht]
    cases hspace : isSpace c with
    | true => simp [scan, Mode.endsAt, hspace]
    | false =>
      rw [scan_cons_of_not_endsAt (by simp [Mode.endsAt, hspace]), Mode.step_of_bare hc]
      simp [Prod.ext_iff]

/-- A text without quotes and backslashes is an argument if it is not empty and has no white
space. -/
theorem Bare.isArgument_iff (h : Bare t) :
    IsArgument t ↔ t ≠ [] ∧ ∀ c ∈ t, isSpace c = false := by
  constructor
  · rintro ⟨hne, -, hscan⟩
    exact ⟨hne, h.scan_eq_iff.mp hscan⟩
  · rintro ⟨hne, hspace⟩
    exact ⟨hne, fun c hc => hspace c (List.mem_of_mem_head? hc), h.scan_eq_iff.mpr hspace⟩

/-! ## All arguments -/

theorem split_of_next?_none (h : next? t = none) : split t = [] := by
  unfold split
  split
  · rfl
  · simp_all

@[simp] theorem split_nil : split [] = [] := split_of_next?_none rfl

theorem split_of_next?_some (h : next? t = some (a, r)) : split t = a :: split r := by
  rw [split]
  split
  · simp_all
  · simp_all

theorem split_trimStart (t : Text) : split (trimStart t) = split t := by
  cases h : next? t with
  | none => rw [split_of_next?_none h, split_of_next?_none (by rw [next?_trimStart, h])]
  | some p => rw [split_of_next?_some h, split_of_next?_some (by rw [next?_trimStart, h])]

theorem split_eq_nil_iff : split t = [] ↔ Blank t := by
  rw [← next?_eq_none_iff]
  constructor
  · intro h
    cases hn : next? t with
    | none => rfl
    | some p =>
      rw [split_of_next?_some hn] at h
      cases h
  · exact split_of_next?_none

/-- Arguments that can be told apart when they are written with single spaces. -/
structure Separable (args : List Text) : Prop where
  isArgument : ∀ a ∈ args, IsArgument a
  closed : ∀ a ∈ args.dropLast, Closed a

theorem forall_mem_dropLast_cons {α : Type} {P : α → Prop} {a : α} {l : List α} :
    (∀ b ∈ (a :: l).dropLast, P b) ↔ (l ≠ [] → P a) ∧ ∀ b ∈ l.dropLast, P b := by
  cases l with
  | nil => simp
  | cons b l => simp [List.dropLast_cons_of_ne_nil]

theorem separable_cons {args : List Text} :
    Separable (a :: args) ↔ IsArgument a ∧ (args ≠ [] → Closed a) ∧ Separable args := by
  constructor
  · rintro ⟨harg, hclosed⟩
    obtain ⟨ha, hargs⟩ := List.forall_mem_cons.mp harg
    obtain ⟨hfirst, hrest⟩ := forall_mem_dropLast_cons.mp hclosed
    exact ⟨ha, hfirst, hargs, hrest⟩
  · rintro ⟨ha, hfirst, hargs, hrest⟩
    exact ⟨List.forall_mem_cons.mpr ⟨ha, hargs⟩, forall_mem_dropLast_cons.mpr ⟨hfirst, hrest⟩⟩

/-- The arguments of a text can be told apart again. -/
theorem separable_split (t : Text) : Separable (split t) := by
  fun_induction split t with
  | case1 t h => exact ⟨by simp, by simp⟩
  | case2 t a r h ih =>
    obtain ⟨ha, -, lead, sep, -, -, -, hsep⟩ := next?_eq_some h
    refine separable_cons.mpr ⟨ha, fun hne => ?_, ih⟩
    have hr : r ≠ [] := by
      rintro rfl
      exact hne split_nil
    exact (hsep (by simp [hr])).2

theorem head?_spaced {args : List Text} : ∀ c ∈ (args.flatMap (' ' :: ·)).head?, isSpace c := by
  cases args with
  | nil => simp
  | cons b args =>
    intro c hc
    cases hc
    decide

/-- Arguments that can be told apart are read back. -/
theorem split_spaced {args : List Text} (h : Separable args) :
    split (args.flatMap (' ' :: ·)) = args := by
  induction args with
  | nil => exact split_nil
  | cons a args ih =>
    obtain ⟨ha, hclosed, hargs⟩ := separable_cons.mp h
    have hnext : next? (' ' :: (a ++ args.flatMap (' ' :: ·))) =
        some (a, trimStart (args.flatMap (' ' :: ·))) := by
      refine next?_append ha fun c hc => ⟨hclosed ?_, head?_spaced c hc⟩
      rintro rfl
      cases hc
    rw [List.flatMap_cons, List.cons_append, split_of_next?_some hnext, split_trimStart, ih hargs]

theorem mem_of_mem_split (ha : a ∈ split t) : ∀ c ∈ a, c ∈ t := by
  fun_induction split t with
  | case1 t h => cases ha
  | case2 t b r h ih =>
    obtain ⟨hb, hr⟩ := mem_of_next?_some h
    rcases List.mem_cons.mp ha with rfl | ha
    · exact hb
    · exact fun c hc => hr c (ih ha c hc)

/-- The last argument of a text without trailing white space ends the text. -/
theorem exists_split_append (ht : NoTrail t) (hne : ¬ Blank t) :
    ∃ before a, split t = before ++ [a] ∧ a ≠ [] ∧ a <:+ t := by
  fun_induction split t with
  | case1 t h => exact absurd (next?_eq_none_iff.mp h) hne
  | case2 t a r h ih =>
    obtain ⟨ha, hlead, -⟩ := next?_eq_some h
    obtain ⟨htrail, hsuffix, hlast⟩ := next?_suffix ht h
    by_cases hr : r = []
    · subst hr
      exact ⟨[], a, by rw [split_nil]; rfl, ha.ne_nil, hlast rfl⟩
    · obtain ⟨before, b, hsplit, hb, hbr⟩ := ih htrail fun hblank =>
        hr (hlead.eq_nil_of_blank hblank)
      exact ⟨a :: before, b, by rw [hsplit]; rfl, hb, hbr.trans hsuffix⟩

/-! ## Flags -/

theorem spanFlags_of_next?_none (h : next? t = none) : spanFlags t = ([], t) := by
  rw [spanFlags]
  split
  · rfl
  · simp_all

theorem spanFlags_of_next?_some (h : next? t = some (a, r)) :
    spanFlags t = if isFlag a then (a :: (spanFlags r).1, (spanFlags r).2) else ([], t) := by
  rw [spanFlags]
  split
  · simp_all
  · simp_all

/-- The first argument of the text is no flag. -/
def NoFlag (t : Text) : Prop := ∀ p ∈ next? t, isFlag p.1 = false

theorem NoFlag.spanFlags_eq (h : NoFlag t) : spanFlags t = ([], t) := by
  cases hn : next? t with
  | none => exact spanFlags_of_next?_none hn
  | some p =>
    rw [spanFlags_of_next?_some hn, h p hn]
    rfl

/-- A text that does not start with two dashes has no flags. -/
theorem noFlag_of_not_prefix (ht : NoLead t) (h : ¬ "--".toList <+: t) : NoFlag t := by
  rintro ⟨a, r⟩ hnext
  have hprefix : a <+: t := next?_prefix ht hnext
  refine Bool.eq_false_iff.mpr fun (hflag : isFlag a) => h ?_
  unfold isFlag at hflag
  split at hflag
  · exact (List.prefix_append ['-', '-'] _).trans hprefix
  · cases hflag

/-- Only the first of all arguments matters. -/
theorem noFlag_iff_split : NoFlag t ↔ ∀ a ∈ (split t).head?, isFlag a = false := by
  unfold NoFlag
  cases h : next? t with
  | none => simp [split_of_next?_none h]
  | some p => simp [split_of_next?_some h]

/-- The flags of a text, and what follows them. -/
structure Flags (flags : List Text) (rest : Text) : Prop where
  separable : Separable flags
  isFlag : ∀ f ∈ flags, isFlag f
  noFlag : NoFlag rest
  noLead : NoLead rest
  closed : rest ≠ [] → ∀ f ∈ flags, Closed f

@[simp] theorem spanFlags_nil : spanFlags [] = ([], []) := spanFlags_of_next?_none rfl

theorem flags_spanFlags (ht : NoLead t) : Flags (spanFlags t).1 (spanFlags t).2 := by
  fun_induction spanFlags t with
  | case1 t h => exact ⟨⟨by simp, by simp⟩, by simp, by simp [NoFlag, h], ht, by simp⟩
  | case2 t a r h hflag _ ih =>
    obtain ⟨ha, hlead, lead, sep, -, -, -, hsep⟩ := next?_eq_some h
    have hr := ih hlead
    have hclosed : r ≠ [] → Closed a := fun hne => (hsep (by simp [hne])).2
    refine ⟨separable_cons.mpr ⟨ha, fun hne => hclosed ?_, hr.separable⟩, ?_, hr.noFlag, hr.noLead,
      fun hne => ?_⟩
    · rintro rfl
      exact hne (congrArg Prod.fst spanFlags_nil)
    · rintro f (_ | ⟨_, hf⟩)
      · exact hflag
      · exact hr.isFlag f hf
    · rintro f (_ | ⟨_, hf⟩)
      · apply hclosed
        rintro rfl
        exact hne (congrArg Prod.snd spanFlags_nil)
      · exact hr.closed hne f hf
  | case3 t a r h hflag =>
    refine ⟨⟨by simp, by simp⟩, by simp, ?_, ht, by simp⟩
    simpa [NoFlag, h] using hflag

theorem mem_of_mem_spanFlags :
    (∀ f ∈ (spanFlags t).1, ∀ c ∈ f, c ∈ t) ∧ ∀ c ∈ (spanFlags t).2, c ∈ t := by
  fun_induction spanFlags t with
  | case1 t h => simp
  | case2 t a r h hflag _ ih =>
    obtain ⟨ha, hr⟩ := mem_of_next?_some h
    refine ⟨?_, fun c hc => hr c (ih.2 c hc)⟩
    rintro f (_ | ⟨_, hf⟩) c hc
    · exact ha c hc
    · exact hr c (ih.1 f hf c hc)
  | case3 t a r h hflag => simp

/-- What ends a text without trailing white space is what follows its flags, or the last flag. -/
theorem spanFlags_suffix (hlead : NoLead t) (ht : NoTrail t) (hne : t ≠ []) :
    ((spanFlags t).2 ≠ [] ∧ (spanFlags t).2 <:+ t) ∨
      ((spanFlags t).2 = [] ∧ ∃ before f, (spanFlags t).1 = before ++ [f] ∧ f ≠ [] ∧ f <:+ t) := by
  fun_induction spanFlags t with
  | case1 t h => exact .inl ⟨hne, List.suffix_rfl⟩
  | case2 t a r h hflag _ ih =>
    obtain ⟨ha, hlead, -⟩ := next?_eq_some h
    obtain ⟨htrail, hsuffix, hlast⟩ := next?_suffix ht h
    by_cases hr : r = []
    · subst hr
      exact .inr ⟨congrArg Prod.snd spanFlags_nil,
        [], a, congrArg (a :: Prod.fst ·) spanFlags_nil, ha.ne_nil, hlast rfl⟩
    · rcases ih hlead htrail hr with ⟨hrest, hend⟩ | ⟨hrest, before, f, hflags, hf, hend⟩
      · exact .inl ⟨hrest, hend.trans hsuffix⟩
      · exact .inr ⟨hrest, a :: before, f, congrArg (a :: ·) hflags, hf, hend.trans hsuffix⟩
  | case3 t a r h hflag => exact .inl ⟨hne, List.suffix_rfl⟩

/-- Flags are read back from a text in which single spaces stand before them. -/
theorem spanFlags_spaced {flags : List Text} (h : Flags flags (trimStart u))
    (hu : ∀ c ∈ u.head?, isSpace c) (hu' : trimStart u = [] → u = []) :
    spanFlags (trimStart (flags.flatMap (' ' :: ·) ++ u)) = (flags, trimStart u) := by
  induction flags with
  | nil => exact h.noFlag.spanFlags_eq
  | cons f flags ih =>
    obtain ⟨hf, hclosed, hflags⟩ := separable_cons.mp h.separable
    have hrest := ih ⟨hflags, fun g hg => h.isFlag g (List.mem_cons_of_mem _ hg), h.noFlag,
      h.noLead, fun hne g hg => h.closed hne g (List.mem_cons_of_mem _ hg)⟩
    have hnext : next? (' ' :: (f ++ (flags.flatMap (' ' :: ·) ++ u))) =
        some (f, trimStart (flags.flatMap (' ' :: ·) ++ u)) := by
      refine next?_append hf fun c hc => ?_
      cases flags with
      | nil =>
        refine ⟨h.closed (fun hnil => ?_) f List.mem_cons_self, hu c hc⟩
        rw [hu' hnil] at hc
        cases hc
      | cons g flags =>
        cases hc
        exact ⟨hclosed (by simp), by decide⟩
    have htext : (f :: flags).flatMap (' ' :: ·) ++ u =
        ' ' :: (f ++ (flags.flatMap (' ' :: ·) ++ u)) := by
      simp
    rw [← next?_trimStart] at hnext
    rw [htext, spanFlags_of_next?_some hnext, if_pos (h.isFlag f List.mem_cons_self), hrest]

end Dockerfile.Argument
