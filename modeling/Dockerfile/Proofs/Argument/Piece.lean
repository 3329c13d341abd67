import Dockerfile.Proofs.Argument.Split

/-!
# What arguments consist of

An argument is a sequence of characters other than white space, of escaped characters and of
quotations. Only the last argument of a text may break off inside an escape or a quotation.

* `Argument.Piece`, `Argument.Tail`: the parts of an argument, and what may be open behind them.
* `Argument.Formed`, `Argument.Formed.step`, `Argument.Formed.run`: the texts that are scanned as
  one argument are made of them.
* `Argument.exists_gaps`: nothing but white space is lost between arguments.
* `Argument.split_lossless`: how a text is divided into arguments, and that writing them with single
  spaces does not change them.
-/

namespace Dockerfile.Argument

open Text

variable {t u : Text} {m : Mode} {c : Char}

/-! ## The parts of an argument -/

/-- What may stand between double quotes: another one, and a backslash, only behind a backslash. -/
inductive Inside : Text → Prop
  | nil : Inside []
  | char {t : Text} {c : Char} : Inside t → c ≠ '"' → c ≠ '\\' → Inside (t ++ [c])
  | escaped {t : Text} (c : Char) : Inside t → Inside (t ++ ['\\', c])

/-- A part of an argument. White space is only behind a backslash or between quotes, and a backslash
between single quotes is an ordinary character. -/
inductive Piece : Text → Prop
  | char {c : Char} : isSpace c = false → c ≠ '"' → c ≠ '\'' → c ≠ '\\' → Piece [c]
  | escaped (c : Char) : Piece ['\\', c]
  | single {t : Text} : '\'' ∉ t → Piece ('\'' :: (t ++ ['\'']))
  | double {t : Text} : Inside t → Piece ('"' :: (t ++ ['"']))

/-- What is open behind the last part of an argument, if there is anything. -/
inductive Tail : Mode → Text → Prop
  | nil : Tail {} []
  | escape : Tail { escaped := true } ['\\']
  | single {t : Text} : '\'' ∉ t → Tail { quote := some .single } ('\'' :: t)
  | double {t : Text} : Inside t → Tail { quote := some .double } ('"' :: t)
  | doubleEscape {t : Text} :
      Inside t → Tail { quote := some .double, escaped := true } ('"' :: (t ++ ['\\']))

/-- The text consists of parts of an argument, and this is open behind them. -/
def Formed (m : Mode) (t : Text) : Prop :=
  ∃ pieces tail, (∀ p ∈ pieces, Piece p) ∧ Tail m tail ∧ t = List.flatten pieces ++ tail

/-! ## Scanning the parts -/

theorem Formed.nil : Formed {} [] := ⟨[], [], by simp, .nil, rfl⟩

/-- With one more part behind the others, nothing is open. -/
theorem formed_concat {pieces : List Text} {p : Text} (h : ∀ p ∈ pieces, Piece p) (hp : Piece p) :
    Formed {} (pieces.flatten ++ p) :=
  ⟨pieces ++ [p], [], by simpa [or_imp, forall_and] using ⟨h, hp⟩, .nil, by simp⟩

theorem Mode.step_single (h : c ≠ '\'') :
    Mode.step { quote := some .single } c = { quote := some .single } := by
  simp [Mode.step, h]

theorem Mode.step_double (hdouble : c ≠ '"') (hescape : c ≠ '\\') :
    Mode.step { quote := some .double } c = { quote := some .double } := by
  simp [Mode.step, hdouble, hescape]

/-- A character that does not end the argument belongs to a part of it. -/
theorem Formed.step (h : Formed m t) (hc : m.endsAt c = false) : Formed (m.step c) (t ++ [c]) := by
  obtain ⟨pieces, tail, hpieces, htail, rfl⟩ := h
  rw [List.append_assoc]
  -- What is open decides whether the character opens something, closes it or goes on with it.
  cases htail with
  | nil =>
    have hspace : isSpace c = false := by simpa [Mode.endsAt] using hc
    by_cases hescape : c = '\\'
    · subst hescape
      exact ⟨pieces, _, hpieces, .escape, rfl⟩
    by_cases hdouble : c = '"'
    · subst hdouble
      exact ⟨pieces, _, hpieces, .double .nil, rfl⟩
    by_cases hsingle : c = '\''
    · subst hsingle
      exact ⟨pieces, _, hpieces, .single List.not_mem_nil, rfl⟩
    rw [Mode.step_of_bare ⟨hdouble, hsingle, hescape⟩]
    exact formed_concat hpieces (.char hspace hdouble hsingle hescape)
  | escape => exact formed_concat hpieces (.escaped c)
  | @single u hu =>
    by_cases hsingle : c = '\''
    · subst hsingle
      exact formed_concat hpieces (.single hu)
    · rw [Mode.step_single hsingle]
      exact ⟨pieces, _, hpieces, .single (by simpa using ⟨hu, Ne.symm hsingle⟩), rfl⟩
  | @double u hu =>
    by_cases hescape : c = '\\'
    · subst hescape
      exact ⟨pieces, _, hpieces, .doubleEscape hu, rfl⟩
    by_cases hdouble : c = '"'
    · subst hdouble
      exact formed_concat hpieces (.double hu)
    · rw [Mode.step_double hdouble hescape]
      exact ⟨pieces, _, hpieces, .double (hu.char hdouble hescape), rfl⟩
  | @doubleEscape u hu => exact ⟨pieces, _, hpieces, .double (.escaped c hu), by simp⟩

/-- The parts of an argument go on with the characters that are scanned. -/
theorem Formed.run (h : Formed m u) (hscan : scan m t = (t, [])) :
    Formed (m.after t) (u ++ t) := by
  induction t generalizing m u with
  | nil =>
    rw [List.append_nil]
    exact h
  | cons c t ih =>
    obtain ⟨hc, ht⟩ := scan_cons_eq_iff.mp hscan
    have hrest := ih (h.step hc) ht
    rwa [List.append_assoc, List.singleton_append] at hrest

/-- An argument consists of parts, and of what is open at its end. -/
theorem IsArgument.formed (h : IsArgument t) : Formed (Mode.after {} t) t :=
  Formed.nil.run h.scan_eq

/-! ## Splitting -/

/-- White space stands around the arguments of a text, and at least one character of it between two
of them. -/
theorem exists_gaps (t : Text) :
    ∃ lead gaps, Blank lead ∧ (∀ w ∈ gaps, Blank w) ∧ (∀ w ∈ gaps.dropLast, w ≠ []) ∧
      gaps.length = (split t).length ∧
      t = lead ++ (List.zipWith (· ++ ·) (split t) gaps).flatten := by
  fun_induction split t with
  | case1 t h => exact ⟨t, [], next?_eq_none_iff.mp h, by simp, by simp, rfl, by simp⟩
  | case2 t a r h ih =>
    obtain ⟨-, -, lead, sep, hlead, hsep, rfl, hne⟩ := next?_eq_some h
    obtain ⟨more, gaps, hmore, hgaps, hinner, hlength, hr⟩ := ih
    refine ⟨lead, (sep ++ more) :: gaps, hlead, ?_, ?_, by simp [hlength], ?_⟩
    · exact List.forall_mem_cons.mpr ⟨List.forall_mem_append.mpr ⟨hsep, hmore⟩, hgaps⟩
    · refine forall_mem_dropLast_cons.mpr ⟨fun hgaps => ?_, hinner⟩
      have hr : r ≠ [] := by
        rintro rfl
        rw [split_nil, List.length_nil, List.length_eq_zero_iff] at hlength
        exact hgaps hlength
      exact List.append_ne_nil_of_left_ne_nil (hne (by simp [hr])).1 more
    · rw [List.zipWith_cons_cons, List.flatten_cons, List.append_assoc, List.append_assoc, ← hr]

theorem flatMap_space (args : List Text) (hargs : args ≠ []) :
    args.flatMap (' ' :: ·) = ' ' :: joinWith [' '] args := by
  match args with
  | [a] => simp [joinWith]
  | a :: b :: args => simp [joinWith, flatMap_space (b :: args) (List.cons_ne_nil b args)]

theorem split_joinWith {args : List Text} (h : Separable args) :
    split (joinWith [' '] args) = args := by
  by_cases hargs : args = []
  · subst hargs
    exact split_nil
  · have hspaced := split_spaced h
    rwa [flatMap_space args hargs, ← split_trimStart, trimStart_space, split_trimStart] at hspaced

/-- Nothing but white space is lost when a text is divided into arguments. -/
theorem split_lossless (t : Text) :
    (∃ lead gaps, Blank lead ∧ (∀ w ∈ gaps, Blank w) ∧ (∀ w ∈ gaps.dropLast, w ≠ []) ∧
      gaps.length = (split t).length ∧
      t = lead ++ (List.zipWith (· ++ ·) (split t) gaps).flatten) ∧
    (∀ a ∈ split t, a ≠ [] ∧ NoLead a ∧ ∃ m, Formed m a) ∧
    (∀ a ∈ (split t).dropLast, Formed {} a) ∧
    split (joinWith [' '] (split t)) = split t := by
  have hsplit := separable_split t
  refine ⟨exists_gaps t, fun a ha => ?_, fun a ha => ?_, split_joinWith hsplit⟩
  · have harg := hsplit.isArgument a ha
    exact ⟨harg.ne_nil, harg.noLead, _, harg.formed⟩
  · have hformed := (hsplit.isArgument a ((List.dropLast_sublist _).subset ha)).formed
    rwa [hsplit.closed a ha] at hformed

/-- Three arguments: an escaped space, a backslash between single quotes, and double quotes that are
left open. -/
def openQuote : Text := " a\\ b \t 'c \\' \"d \\\" e ".toList

theorem split_lossless_openQuote :
    split openQuote = ["a\\ b".toList, "'c \\'".toList, "\"d \\\" e ".toList] ∧
      Formed {} "a\\ b".toList ∧ Formed {} "'c \\'".toList ∧
      (∃ m, Formed m "\"d \\\" e ".toList) ∧
      split (joinWith [' '] (split openQuote)) = split openQuote := by
  have hsplit : split openQuote =
      ["a\\ b".toList, "'c \\'".toList, "\"d \\\" e ".toList] := by decide +kernel
  obtain ⟨-, hargs, hwhole, hjoined⟩ := split_lossless openQuote
  refine ⟨hsplit, hwhole _ ?_, hwhole _ ?_, (hargs _ ?_).2.2, hjoined⟩
  all_goals
    rw [hsplit]
    decide

end Dockerfile.Argument
