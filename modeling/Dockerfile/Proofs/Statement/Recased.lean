import Dockerfile.Proofs.Directive
import Dockerfile.Proofs.Heredoc.Scan
import Dockerfile.Proofs.Statement.Division
import Dockerfile.Proofs.Text.Recased
import Dockerfile.Reading

/-!
# First words in another case

The first word of a statement stands at the start of the first of its lines with text. If that word
has letters and digits only, its case does not count: neither for the line, nor for the heredocs
that the header opens, nor for the way in which the lines are divided.

* `Statement.Recased`: statements that differ in the case of their first words.
* `Statement.headerRecased_of_word`: a header with its first word in another case.
* `Statement.BeginsAt`, `Statement.BeginsIn.exists_keyword`: where the first word of a statement
  stands.
* `Statement.Whole.recased`, `Statement.Division.recased`: lines with such words in another case
  are divided alike.
-/

namespace Dockerfile.Statement

open Text Heredoc

variable {escape : Char} {word spelled lead rest line : Text} {n first : Nat}
  {ls ks header other above below body more : List Text} {ss ts : List Statement}

/-- The statements differ in the case of their first words only. -/
structure Recased (s t : Statement) : Prop where
  text : foldCase t.text = foldCase s.text
  name : foldCase t.name = foldCase s.name
  after : afterFirstWord t.text = afterFirstWord s.text
  body : t.body = s.body
  first : t.first = s.first
  last : t.last = s.last

/-! ## One line -/

theorem piece_word (hescape : Escape.isValid escape) (hword : isAlphanum word) (t : Text) :
    piece escape (word ++ t) = (word ++ (piece escape t).1, (piece escape t).2) := by
  have hlast : (word ++ t).getLast? = some escape ↔ t.getLast? = some escape := by
    rw [List.getLast?_append]
    cases ht : t.getLast? with
    | some c => simp
    | none =>
      have hne : word.getLast? ≠ some escape := fun h =>
        ne_of_isAlphanum ((isAlphanum_iff.mp hword).2 escape (List.mem_of_getLast? h))
          (Escape.isAlphanum_of_isValid hescape) rfl
      simpa using hne
  by_cases ht : t.getLast? = some escape
  · obtain ⟨before, rfl⟩ := List.getLast?_eq_some_iff.mp ht
    rw [← List.append_assoc, piece_concat, piece_concat, trimEnd_word_append hword]
  · rw [piece_of_getLast?_ne ht, piece_of_getLast?_ne (mt hlast.mp ht)]

theorem isSkipped_word (hword : isAlphanum word) (t : Text) : isSkipped (word ++ t) = false := by
  obtain ⟨hne, hall⟩ := isAlphanum_iff.mp hword
  obtain ⟨c, word, rfl⟩ := List.exists_cons_of_ne_nil hne
  have hc : c ≠ '#' := ne_of_isAlphanum (hall c List.mem_cons_self) (by decide)
  simpa [isSkipped] using hc

theorem lineText_word (hescape : Escape.isValid escape) (hlead : Blank lead)
    (hword : isAlphanum word) (rest : Text) :
    lineText escape (lead ++ (word ++ rest)) = word ++ (piece escape (trimEnd rest)).1 := by
  have htrim := trim_word_append hlead hword rest
  rw [lineText_of_not_isSkipped (by rw [htrim, isSkipped_word hword]), htrim,
    piece_word hescape hword]

theorem endsHeader_word (hescape : Escape.isValid escape) (hlead : Blank lead)
    (hword : isAlphanum word) (rest : Text) :
    endsHeader escape (lead ++ (word ++ rest)) = !(piece escape (trimEnd rest)).2 := by
  have hsnd := congrArg Prod.snd (piece_word hescape hword (trimEnd rest))
  simp only [piece_snd] at hsnd
  rw [Bool.eq_iff_iff, endsHeader_iff, trim_word_append hlead hword, isSkipped_word hword,
    piece_snd, ← hsnd]
  simp only [true_and, ne_eq, Bool.not_eq_true', decide_eq_false_iff_not]

/-! ## Headers -/

theorem joinWith_append_cons {sep a b : Text} :
    joinWith sep ((a ++ b) :: ls) = a ++ joinWith sep (b :: ls) := by
  cases ls <;> simp [joinWith]

/-- Texts that are joined by spaces: the first one, and what follows it behind a space. -/
theorem exists_joinWith_cons (t : Text) (ts : List Text) :
    ∃ q, joinWith [' '] (t :: ts) = t ++ q ∧ ∀ c ∈ q.head?, c = ' ' := by
  cases ts with
  | nil => exact ⟨[], by simp [joinWith], by simp⟩
  | cons u ts => exact ⟨' ' :: joinWith [' '] (u :: ts), by simp [joinWith], by simp⟩

theorem joined_of_textless (habove : ∀ l ∈ above, lineText escape l = [])
    (hline : lineText escape line ≠ []) :
    joined escape (above ++ line :: below) =
      joinWith [' '] (lineText escape line :: lineTexts escape below) := by
  have hnil : lineTexts escape above = [] := by simpa [lineTexts] using habove
  have hcut : lineTexts escape (above ++ line :: below) =
      lineTexts escape above ++ lineText escape line :: lineTexts escape below := by
    simp [lineTexts, hline]
  rw [joined, hcut, hnil, List.nil_append]

/-- Lines have no text, or a first line with text. -/
theorem textless_or (escape : Char) (ls : List Text) :
    (joined escape ls = [] ∧ ∀ l ∈ ls, lineText escape l = []) ∨
      joined escape ls ≠ [] ∧ ∃ above line below, ls = above ++ line :: below ∧
        (∀ l ∈ above, lineText escape l = []) ∧ lineText escape line ≠ [] := by
  rcases exists_upTo_or (fun l => decide (lineText escape l ≠ [])) ls with
    hnone | ⟨front, below, rfl, above, line, rfl, habove, hline⟩
  · have htextless : ∀ l ∈ ls, lineText escape l = [] := by simpa using hnone
    refine .inl ⟨?_, htextless⟩
    have hnil : lineTexts escape ls = [] := by simpa [lineTexts] using htextless
    rw [joined, hnil]
    rfl
  · have habove : ∀ l ∈ above, lineText escape l = [] := by simpa using habove
    have hline : lineText escape line ≠ [] := by simpa using hline
    refine .inr ⟨?_, above, line, below, by simp, habove, hline⟩
    rw [List.append_assoc, List.singleton_append, joined_of_textless habove hline,
      ← List.append_nil (lineText escape line), joinWith_append_cons]
    exact List.append_ne_nil_of_left_ne_nil hline _

/-- The headers differ in the case of the first word of their text only. -/
structure HeaderRecased (escape : Char) (header other : List Text) : Prop where
  ends : other.map (endsHeader escape) = header.map (endsHeader escape)
  startsBusy : StartsBusy header → StartsBusy other
  opened : openedBy (joined escape other) = openedBy (joined escape header)
  statement : ∀ body first last, Recased { text := joined escape header, body, first, last }
    { text := joined escape other, body, first, last }

theorem HeaderRecased.refl (escape : Char) (header : List Text) :
    HeaderRecased escape header header :=
  ⟨rfl, id, rfl, fun _ _ _ => ⟨rfl, rfl, rfl, rfl, rfl, rfl⟩⟩

theorem HeaderRecased.length_eq (h : HeaderRecased escape header other) :
    other.length = header.length := by
  simpa using congrArg List.length h.ends

/-- The first word of the text stands on its first line, and its case does not count. -/
theorem headerRecased_of_word (hescape : Escape.isValid escape)
    (habove : ∀ l ∈ above, lineText escape l = []) (hlead : Blank lead) (hword : isAlphanum word)
    (hfold : foldCase spelled = foldCase word)
    (hname : firstWord (joined escape (above ++ (lead ++ (word ++ rest)) :: below)) = word) :
    HeaderRecased escape (above ++ (lead ++ (word ++ rest)) :: below)
      (above ++ (lead ++ (spelled ++ rest)) :: below) := by
  have hspelled : isAlphanum spelled := by rw [isAlphanum_congr hfold, hword]
  let tail := joinWith [' '] ((piece escape (trimEnd rest)).1 :: lineTexts escape below)
  have hjoined {w : Text} (hw : isAlphanum w) :
      joined escape (above ++ (lead ++ (w ++ rest)) :: below) = w ++ tail := by
    have htext := lineText_word hescape hlead hw rest
    have hne : lineText escape (lead ++ (w ++ rest)) ≠ [] := by
      rw [htext]
      exact List.append_ne_nil_of_left_ne_nil (isAlphanum_iff.mp hw).1 _
    rw [joined_of_textless habove hne, htext, joinWith_append_cons]
  rw [hjoined hword, firstWord_word_append hword] at hname
  have htail : (trimEnd tail).takeWhile (!isSpace ·) = [] := by simpa using hname
  have hfirst {w : Text} (hw : isAlphanum w) : firstWord (w ++ tail) = w := by
    rw [firstWord_word_append hw, htail, List.append_nil]
  have hopened {w : Text} (hw : isAlphanum w) :
      openedBy (w ++ tail) = if canOpen (Keyword.ofName? w) then scan tail else [] := by
    have hangle : '<' ∉ w := fun hmem => absurd ((isAlphanum_iff.mp hw).2 _ hmem) (by decide)
    rw [openedBy, hfirst hw, scan_append_of_not_mem hangle]
  refine ⟨?_, fun hbusy => ?_, ?_, fun body first last => ⟨?_, ?_, ?_, rfl, rfl, rfl⟩⟩
  · simp only [List.map_append, List.map_cons, endsHeader_word hescape hlead hword,
      endsHeader_word hescape hlead hspelled]
  · cases above with
    | nil =>
      refine ⟨_, rfl, fun hidle => ?_⟩
      have hskip := isSkipped_trim_iff.mpr hidle
      rw [trim_word_append hlead hspelled, isSkipped_word hspelled] at hskip
      cases hskip
    | cons l above => exact hbusy
  · rw [hjoined hword, hjoined hspelled, hopened hword, hopened hspelled,
      Keyword.ofName?_congr hfold]
  · simp only [hjoined hword, hjoined hspelled]
    rw [foldCase, List.map_append, ← foldCase, hfold, foldCase, ← List.map_append]
    rfl
  · simp only [name, hjoined hword, hjoined hspelled, hfirst hword, hfirst hspelled, hfold]
  · simp only [hjoined hword, hjoined hspelled, afterFirstWord_word_append hword,
      afterFirstWord_word_append hspelled]

/-! ## All lines -/

/-- The text of the statement whose first line is `first` begins on the line with `n` lines above
it: the lines of the statement above that line have no text. -/
structure BeginsAt (escape : Char) (ls : List Text) (first n : Nat) : Prop where
  first_le : first ≤ n + 1
  above : ∀ m line, first ≤ m + 1 → m < n → ls[m]? = some line → lineText escape line = []
  text : ∃ line, ls[n]? = some line ∧ lineText escape line ≠ []

instance : Decidable (BeginsAt escape ls first n) :=
  decidable_of_iff (first ≤ n + 1 ∧
    (∀ m < n, first ≤ m + 1 → ∀ line ∈ ls[m]?, lineText escape line = []) ∧
    ∃ line ∈ ls[n]?, lineText escape line ≠ [])
    ⟨fun ⟨hfirst, habove, htext⟩ => ⟨hfirst, fun m line hm hmn hline => habove m hmn hm line hline,
      htext⟩,
    fun ⟨hfirst, habove, htext⟩ => ⟨hfirst, fun m hmn hm line hline => habove m line hm hmn hline,
      htext⟩⟩

/-- The text of one of the statements begins on this line, with this word. -/
def KeywordAt (escape : Char) (ls : List Text) (ss : List Statement) (n : Nat) (word : Text) :
    Prop :=
  ∃ s ∈ ss, BeginsAt escape ls s.first n ∧ s.name = word

theorem BeginsAt.lt_length (h : BeginsAt escape ls first n) : n < ls.length := by
  obtain ⟨line, hline, -⟩ := h.text
  exact (List.getElem?_eq_some_iff.mp hline).1

theorem BeginsAt.le {m : Nat} (h : BeginsAt escape ls first m) (h' : BeginsAt escape ls first n) :
    m ≤ n := by
  by_contra hlt
  obtain ⟨line, hline, htext⟩ := h'.text
  exact htext (h.above n line h'.first_le (Nat.lt_of_not_le hlt) hline)

/-- Only the lines up to this one count. -/
theorem BeginsAt.congr (h : BeginsAt escape ls first n) (hsame : ∀ m ≤ n, ks[m]? = ls[m]?) :
    BeginsAt escape ks first n := by
  obtain ⟨hfirst, habove, line, hline, htext⟩ := h
  refine ⟨hfirst, fun m l hm hmn hl => habove m l hm hmn ?_, line, ?_, htext⟩
  · rwa [← hsame m (Nat.le_of_lt hmn)]
  · rwa [hsame n (Nat.le_refl n)]

theorem beginsAt_append_iff (hn : n < ls.length) (more : List Text) :
    BeginsAt escape (ls ++ more) first n ↔ BeginsAt escape ls first n := by
  have hsame (m : Nat) (hm : m ≤ n) : (ls ++ more)[m]? = ls[m]? :=
    List.getElem?_append_left (Nat.lt_of_le_of_lt hm hn)
  exact ⟨fun h => h.congr fun m hm => (hsame m hm).symm, fun h => h.congr hsame⟩

/-- The lines above the first one do not count. -/
theorem BeginsAt.of_append (h : BeginsAt escape (ls ++ more) (ls.length + 1) (ls.length + n)) :
    BeginsAt escape more 1 n := by
  obtain ⟨-, habove, htext⟩ := h
  have hsame (m : Nat) : (ls ++ more)[ls.length + m]? = more[m]? := by
    rw [List.getElem?_append_right (Nat.le_add_right ..), Nat.add_sub_cancel_left]
  refine ⟨Nat.le_add_left 1 n, fun m l _ hmn hl => ?_, by rwa [hsame] at htext⟩
  exact habove (ls.length + m) l (by omega) (by omega) (by rwa [hsame])

/-- The text of the statement begins on one of the lines. -/
def BeginsIn (escape : Char) (ls : List Text) (s : Statement) : Prop :=
  ∃ n line rest, BeginsAt escape ls s.first n ∧ ls[n]? = some line ∧
    s.text = joinWith [' '] (lineText escape line :: rest)

theorem BeginsIn.append {s : Statement} (h : s.BeginsIn escape ls) (more : List Text) :
    s.BeginsIn escape (ls ++ more) := by
  obtain ⟨n, line, rest, hn, hline, htext⟩ := h
  refine ⟨n, line, rest, (beginsAt_append_iff hn.lt_length more).mpr hn, ?_, htext⟩
  rwa [List.getElem?_append_left hn.lt_length]

theorem beginsIn_header (ls : List Text) (hne : joined escape header ≠ []) (last : Nat) :
    BeginsIn escape (ls ++ header)
      { text := joined escape header, body, first := ls.length + 1, last } := by
  rcases textless_or escape header with ⟨hnil, -⟩ | ⟨-, above, line, below, rfl, habove, hline⟩
  · exact absurd hnil hne
  · refine ⟨ls.length + above.length, line, lineTexts escape below,
      ⟨Nat.succ_le_succ (Nat.le_add_right ..), fun m l hm hmn hl => habove l ?_, line, by simp,
        hline⟩, by simp, joined_of_textless habove hline⟩
    have hm : ls.length ≤ m := Nat.le_of_succ_le_succ hm
    rw [List.getElem?_append_right hm, List.getElem?_append_left (by omega)] at hl
    exact List.mem_of_getElem? hl

theorem Whole.beginsIn (h : Whole escape ls ss) : ∀ s ∈ ss, s.BeginsIn escape ls := by
  induction h with
  | nil => simp
  | idle _ _ ih => exact fun s hs => (ih s hs).append _
  | statement _ _ hheader _ ih =>
    refine List.forall_mem_append.mpr ⟨fun s hs => (ih s hs).append _,
      List.forall_mem_singleton.mpr ?_⟩
    rw [← List.append_assoc]
    exact (beginsIn_header _ (joined_ne_nil hheader) _).append _

theorem Division.beginsIn (h : Division escape ls ss) : ∀ s ∈ ss, s.BeginsIn escape ls := by
  cases h with
  | whole h => exact h.beginsIn
  | leftOpen h _ _ =>
    refine List.forall_mem_append.mpr ⟨fun s hs => (h.beginsIn s hs).append _, fun s hs => ?_⟩
    unfold keep at hs
    split at hs
    · cases hs
    · next hne =>
      rw [List.mem_singleton.mp hs]
      exact beginsIn_header _ hne _

/-- The text on a line is a part of the line. -/
theorem exists_eq_lineText (hne : lineText escape line ≠ []) :
    ∃ lead tail, Blank lead ∧ line = lead ++ (lineText escape line ++ tail) ∧
      NoLead (lineText escape line) := by
  have hskip : isSkipped (trim line) = false := by
    refine Bool.eq_false_iff.mpr fun hskip => hne ?_
    rw [lineText, if_pos hskip]
  obtain ⟨lead, hlead, hline⟩ := exists_trimStart line
  obtain ⟨trail, -, htrim⟩ := exists_trimEnd (trimStart line)
  rw [← trim] at htrim
  have hcut : ∃ x, trim line = lineText escape line ++ x := by
    rw [lineText_of_not_isSkipped hskip]
    cases hp : (piece escape (trim line)).2 with
    | false => exact ⟨[], by rw [(piece_of_not_continues hp).1, List.append_nil]⟩
    | true =>
      obtain ⟨before, hbefore, hpiece⟩ := piece_of_continues hp
      obtain ⟨x, -, hx⟩ := exists_trimEnd before
      exact ⟨x ++ [escape], by rw [hpiece, ← List.append_assoc, ← hx, ← hbefore]⟩
  obtain ⟨x, hx⟩ := hcut
  refine ⟨lead, x ++ trail, hlead, ?_, fun c hc => (trimmed_trim line).1 c ?_⟩
  · rw [← List.append_assoc (lineText escape line), ← hx, ← htrim, ← hline]
  · rw [hx, List.head?_append_of_ne_nil _ hne]
    exact hc

/-- The keyword of a statement stands at the start of the line on which its text begins. -/
theorem BeginsIn.exists_keyword {s : Statement} (h : s.BeginsIn escape ls)
    (hname : isAlphanum s.name) :
    ∃ n lead tail, BeginsAt escape ls s.first n ∧ Blank lead ∧
      ls[n]? = some (lead ++ (s.name ++ tail)) := by
  obtain ⟨n, line, rest, hn, hline, htext⟩ := h
  obtain ⟨l, hl, hne⟩ := hn.text
  obtain rfl : l = line := by rwa [hline, Option.some.injEq, eq_comm] at hl
  obtain ⟨lead, tail, hlead, hcut, hstart⟩ := exists_eq_lineText hne
  obtain ⟨q, hq, hspace⟩ := exists_joinWith_cons (lineText escape l) rest
  have hprefix : s.name <+: lineText escape l ++ q := by
    rw [name, htext, hq]
    exact (hstart.append hne).firstWord_isPrefix
  obtain ⟨x, hx⟩ := prefix_of_prefix_append hprefix fun c hc hmem => by
    obtain rfl := hspace c hc
    exact absurd ((isAlphanum_iff.mp hname).2 _ hmem) (by decide)
  exact ⟨n, lead, x ++ tail, hn, hlead, by rw [← List.append_assoc s.name, hx, ← hcut, hline]⟩

/-- Below whole statements, only the next one has a keyword. -/
theorem Whole.exists_recased (h : Whole escape ls ss) (word : Text)
    (hts : ∀ t ∈ ts, t ∈ ss ∨ t.first = ls.length + 1 ∧ t.name = word)
    (hr : RecasedAt (KeywordAt escape (ls ++ more) ts) (ls ++ more) others) :
    ∃ ks below, others = ks ++ below ∧ RecasedAt (KeywordAt escape ls ss) ls ks ∧
      RecasedAt (fun n w => w = word ∧ BeginsAt escape more 1 n) more below := by
  obtain ⟨ks, below, rfl, hks, hbelow⟩ := hr.exists_append
  refine ⟨ks, below, rfl, hks.mono ?_, hbelow.mono ?_⟩
  · rintro n hn w ⟨t, ht, hbegins, rfl⟩
    rcases hts t ht with hss | ⟨hlater, -⟩
    · exact ⟨t, hss, (beginsAt_append_iff hn more).mp hbegins, rfl⟩
    · have := hbegins.first_le
      omega
  · rintro n - w ⟨t, ht, hbegins, rfl⟩
    rcases hts t ht with hss | ⟨hlater, rfl⟩
    · -- The text of an earlier statement begins further up.
      obtain ⟨m, _, _, hm, -⟩ := h.beginsIn t hss
      have hle := hbegins.le ((beginsAt_append_iff hm.lt_length more).mpr hm)
      have := hm.lt_length
      omega
    · rw [hlater] at hbegins
      exact ⟨rfl, hbegins.of_append⟩

/-- Only the first line with text has the keyword of a header. -/
theorem exists_headerRecased (hescape : Escape.isValid escape) (hne : joined escape header ≠ [])
    (body : List Text) (hname : firstWord (joined escape header) = word)
    (hword : isAlphanum word)
    (hr : RecasedAt (fun n w => w = word ∧ BeginsAt escape (header ++ body) 1 n)
      (header ++ body) others) :
    ∃ other, others = other ++ body ∧ HeaderRecased escape header other := by
  rcases textless_or escape header with ⟨hnil, -⟩ | ⟨-, above, line, below, rfl, habove, hline⟩
  · exact absurd hnil hne
  · rw [List.append_assoc] at hr
    obtain ⟨ks, rest, rfl, hks, hrest⟩ := hr.exists_append
    obtain ⟨k, rest, rfl, hk, hrest⟩ := hrest.exists_cons
    obtain rfl : ks = above := hks.eq_of_not fun n hn w ⟨_, _, _, l, hl, htext⟩ => by
      rw [List.getElem?_append_left hn] at hl
      exact htext (habove l (List.mem_of_getElem? hl))
    obtain rfl : rest = below ++ body := hrest.eq_of_not fun n _ w ⟨_, _, htextless, _⟩ =>
      hline (htextless ks.length line (Nat.le_add_left ..) (by omega) (by simp))
    refine ⟨ks ++ k :: below, by simp, ?_⟩
    rcases hk with rfl | ⟨w, ⟨rfl, -⟩, lead, spelled, rest, hlead, rfl, rfl, hfold⟩
    · exact .refl escape _
    · exact headerRecased_of_word hescape habove hlead hword hfold hname

/-- Whole statements remain, one for one. -/
theorem Whole.recased (hescape : Escape.isValid escape) (h : Whole escape ls ss)
    (hnames : ∀ s ∈ ss, isAlphanum s.name) (hr : RecasedAt (KeywordAt escape ls ss) ls ks) :
    ∃ ts, Whole escape ks ts ∧ List.Forall₂ Recased ss ts := by
  induction h generalizing ks with
  | nil =>
    obtain rfl : ks = [] := List.length_eq_zero_iff.mp hr.length_eq
    exact ⟨[], .nil, .nil⟩
  | @idle ls ss line h hline ih =>
    obtain ⟨ks, below, rfl, hks, hbelow⟩ := h.exists_recased [] (fun t ht => .inl ht) hr
    obtain ⟨ts, hts, hss⟩ := ih hnames hks
    obtain rfl : below = [line] := hbelow.eq_of_not fun n hn w ⟨_, _, _, l, hl, htext⟩ => by
      rw [List.mem_singleton.mp (List.mem_of_getElem? hl), lineText,
        if_pos (isSkipped_trim_iff.mpr hline)] at htext
      exact htext rfl
    exact ⟨ts, hts.idle hline, hss⟩
  | @statement ls header body ss h hstart hheader hbody ih =>
    obtain ⟨hnames, hname⟩ := List.forall_mem_append.mp hnames
    have hname := List.forall_mem_singleton.mp hname
    obtain ⟨ks, below, rfl, hks, hbelow⟩ := h.exists_recased (firstWord (joined escape header))
      (fun t ht => (List.mem_append.mp ht).imp_right fun ht => by
        rw [List.mem_singleton.mp ht]
        exact ⟨rfl, rfl⟩) hr
    obtain ⟨ts, hts, hss⟩ := ih hnames hks
    obtain ⟨other, rfl, hother⟩ :=
      exists_headerRecased hescape (joined_ne_nil hheader) body rfl hname hbelow
    refine ⟨_, hts.statement (hother.startsBusy hstart) (hheader.of_map_eq hother.ends)
      (by rwa [hother.opened]), List.rel_append hss (.cons ?_ .nil)⟩
    rw [hks.length_eq, hother.length_eq]
    exact hother.statement ..

theorem Recased.keep {s t : Statement} (h : s.Recased t) :
    List.Forall₂ Recased (keep s) (keep t) := by
  have hnil : t.text = [] ↔ s.text = [] := by
    have := congrArg List.length h.text
    simp only [foldCase, List.length_map] at this
    rw [← List.length_eq_zero_iff, this, List.length_eq_zero_iff]
  unfold Statement.keep
  by_cases hs : s.text = []
  · rw [if_pos hs, if_pos (hnil.mpr hs)]
    exact .nil
  · rw [if_neg hs, if_neg (mt hnil.mp hs)]
    exact .cons h .nil

/-- The lines are divided alike. -/
theorem Division.recased (hescape : Escape.isValid escape) (h : Division escape ls ss)
    (hnames : ∀ s ∈ ss, isAlphanum s.name) (hr : RecasedAt (KeywordAt escape ls ss) ls ks) :
    ∃ ts, Division escape ks ts ∧ List.Forall₂ Recased ss ts := by
  cases h with
  | whole h =>
    obtain ⟨ts, hts, hss⟩ := h.recased hescape hnames hr
    exact ⟨ts, .whole hts, hss⟩
  | @leftOpen ls header ss h hstart hopen =>
    obtain ⟨hnames, hname⟩ := List.forall_mem_append.mp hnames
    obtain ⟨ks, below, rfl, hks, hbelow⟩ := h.exists_recased
      (firstWord (joined escape header))
      (fun t ht => (List.mem_append.mp ht).imp_right fun ht => by
        unfold keep at ht
        split at ht
        · cases ht
        · rw [List.mem_singleton.mp ht]
          exact ⟨rfl, rfl⟩) hr
    obtain ⟨ts, hts, hss⟩ := h.recased hescape hnames hks
    have hother : HeaderRecased escape header below := by
      rcases textless_or escape header with ⟨-, htextless⟩ | ⟨hne, -⟩
      · obtain rfl : below = header := hbelow.eq_of_not fun n _ w ⟨_, _, _, l, hl, htext⟩ =>
          htext (htextless l (List.mem_of_getElem? hl))
        exact .refl escape below
      · rw [keep, if_neg hne] at hname
        have hword := List.forall_mem_singleton.mp hname
        obtain ⟨other, rfl, hother⟩ := exists_headerRecased hescape hne [] rfl hword
          (by simpa using hbelow)
        simpa using hother
    refine ⟨_, .leftOpen hts (hother.startsBusy hstart) ?_, List.rel_append hss ?_⟩
    · have hends : ∀ b ∈ below.map (endsHeader escape), b = false := by
        rw [hother.ends]
        simpa using hopen
      simpa using hends
    · rw [hks.length_eq, hother.length_eq]
      exact (hother.statement [] _ _).keep

end Dockerfile.Statement
