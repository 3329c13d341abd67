import Dockerfile.Heredoc
import Dockerfile.Proofs.Argument.Split

/-!
# Heredocs and white space

No heredoc marker contains white space, so the heredocs that a text opens are those of its words in
order, whatever white space stands between them.

* `Heredoc.scan_append_space`: a text can be scanned on both sides of white space.
* `Heredoc.scan_split`, `Heredoc.scan_spanFlags`: the heredocs of a text are those of its arguments.
* `Heredoc.scan_spaced`: and those of its arguments with single spaces between them.
-/

namespace Dockerfile

namespace Heredoc

open Text Argument

variable {t u : Text} {c : Char} {args : List Text}

theorem isWordChar_of_isSpace (h : isSpace c) : isWordChar c = false := by
  rw [isWordChar, Bool.or_eq_false_iff]
  constructor
  · by_contra hc
    rw [isSpace_of_isAlphanum (by simpa using hc)] at h
    cases h
  · simpa using ne_of_isSpace h (d := '_') (by decide)

/-! ## Markers -/

theorem word?_append_space (h : isSpace c) (t u : Text) : word? (t ++ c :: u) = word? t := by
  have hc := isWordChar_of_isSpace h
  have htake (v : Text) : (v ++ c :: u).takeWhile isWordChar = v.takeWhile isWordChar := by
    induction v with
    | nil => simp [hc]
    | cons d v ih => by_cases hd : isWordChar d <;> simp [hd, ih]
  have hdrop (v : Text) :
      (v ++ c :: u).dropWhile isWordChar = v.dropWhile isWordChar ++ c :: u := by
    induction v with
    | nil => simp [hc]
    | cons d v ih => by_cases hd : isWordChar d <;> simp [hd, ih]
  cases t with
  | nil =>
    have hquote : ¬ (c = '"' ∨ c = '\'') :=
      not_or.mpr ⟨ne_of_isSpace h (by decide), ne_of_isSpace h (by decide)⟩
    simp [word?, hquote, hc]
  | cons d rest =>
    rw [List.cons_append, word?, word?]
    by_cases hquote : d = '"' ∨ d = '\''
    · have hne : c ≠ d := by
        rcases hquote with rfl | rfl
        · exact ne_of_isSpace h (by decide)
        · exact ne_of_isSpace h (by decide)
      have hhead : ((rest.dropWhile isWordChar ++ c :: u).head? = some d) ↔
          (rest.dropWhile isWordChar).head? = some d := by
        cases rest.dropWhile isWordChar with
        | nil => simp [hne]
        | cons e v => simp
      simp only [hquote, htake, hdrop, hhead, if_true]
    · have htake' := htake (d :: rest)
      rw [List.cons_append] at htake'
      simp only [hquote, htake', if_false]

theorem ofText?_append_space (h : isSpace c) (t u : Text) : ofText? (t ++ c :: u) = ofText? t := by
  have hdash : c ≠ '-' := ne_of_isSpace h (by decide)
  fun_cases ofText? t with
  | case1 rest => rw [List.cons_append, ofText?, word?_append_space h]
  | case2 t ht =>
    rw [ofText?, word?_append_space h]
    intro rest hrest
    cases t with
    | nil => exact hdash (List.cons.inj hrest).1
    | cons d t => exact ht t (by rw [(List.cons.inj hrest).1])

/-! ## Scanning -/

theorem scan_cons_of_ne (h : c ≠ '<') : scan (c :: t) = scan t := by
  rw [scan]
  exact fun _ hc => absurd hc h

theorem scan_append_space (h : isSpace c) (t u : Text) :
    scan (t ++ c :: u) = scan t ++ scan u := by
  have hc : c ≠ '<' := ne_of_isSpace h (by decide)
  fun_induction scan t with
  | case1 rest ih =>
    rw [List.cons_append, List.cons_append, scan, ofText?_append_space h, ih, List.append_assoc]
  | case2 d rest hd ih =>
    rw [← ih, List.cons_append, scan]
    rintro more rfl hmore
    cases rest with
    | nil => exact hc (List.cons.inj hmore).1
    | cons e rest => exact hd rest rfl (by rw [(List.cons.inj hmore).1])
  | case3 => rw [List.nil_append, scan_cons_of_ne hc, List.nil_append]

theorem scan_append_of_not_mem (h : '<' ∉ t) (u : Text) : scan (t ++ u) = scan u := by
  induction t with
  | nil => rfl
  | cons c t ih =>
    simp only [List.mem_cons, not_or] at h
    rw [List.cons_append, scan_cons_of_ne (Ne.symm h.1), ih h.2]

theorem scan_blank_append (h : Blank t) (u : Text) : scan (t ++ u) = scan u :=
  scan_append_of_not_mem (fun hc => absurd (h _ hc) (by decide)) u

theorem scan_of_not_mem (h : '<' ∉ t) : scan t = [] := by
  simpa [scan] using scan_append_of_not_mem h []

/-- White space between two texts keeps their markers apart. -/
theorem scan_append_blank {sep : Text} (hsep : Blank sep) (hne : sep ++ u ≠ [] → sep ≠ []) :
    scan (t ++ (sep ++ u)) = scan t ++ scan u := by
  cases sep with
  | nil =>
    have hu : u = [] := by
      by_contra hu
      exact hne (by simpa using hu) rfl
    subst hu
    simp [scan]
  | cons c sep =>
    rw [List.cons_append, scan_append_space (hsep c List.mem_cons_self),
      scan_blank_append fun d hd => hsep d (List.mem_cons_of_mem _ hd)]

/-! ## Arguments -/

theorem scan_of_next?_some {a r : Text} (h : next? t = some (a, r)) :
    scan t = scan a ++ scan r := by
  obtain ⟨-, -, lead, sep, hlead, hsep, rfl, hne⟩ := next?_eq_some h
  rw [scan_blank_append hlead, scan_append_blank hsep fun hnil => (hne hnil).1]

theorem scan_split (t : Text) : (split t).flatMap scan = scan t := by
  fun_induction split t with
  | case1 t h =>
    have := scan_blank_append (next?_eq_none_iff.mp h) []
    rw [List.append_nil] at this
    rw [this]
    rfl
  | case2 t a r h ih => rw [List.flatMap_cons, ih, scan_of_next?_some h]

theorem scan_spanFlags (t : Text) :
    (spanFlags t).1.flatMap scan ++ scan (spanFlags t).2 = scan t := by
  fun_induction spanFlags t with
  | case1 t h => rfl
  | case2 t a r h hflag _ ih =>
    rw [scan_of_next?_some h, ← ih, List.flatMap_cons, List.append_assoc]
  | case3 t a r h hflag => rfl

theorem scan_spaced (args : List Text) : scan (args.flatMap (' ' :: ·)) = args.flatMap scan := by
  induction args with
  | nil => rfl
  | cons a args ih =>
    rw [List.flatMap_cons, List.flatMap_cons, ← ih, List.cons_append, scan_cons_of_ne (by decide)]
    cases args with
    | nil => simp [scan]
    | cons b args =>
      rw [List.flatMap_cons, List.cons_append, scan_append_space (by decide),
        scan_cons_of_ne (by decide)]

end Heredoc

end Dockerfile
