import Dockerfile.Text.Line
import Mathlib.Data.List.Basic

/-!
# Lines of texts

Joining lines and splitting a text into its lines undo each other, except for line endings other
than a single line feed between two lines.

* `Text.lines_unlines`: lines without line endings inside are read back, if the last is not empty.
* `Text.unlines_lines`: a text without carriage returns and without a final line feed is its lines.
* `Text.lines_append`: two texts with a line feed between them have the lines of both.
* `Text.lines_append_of_ended`: so have two texts of which the first ends in a line feed.
* `Text.lineFeeds_unlines`: joined lines have a line feed between neighbours.
-/

namespace Dockerfile.Text

variable {t l sep : Text} {ls ks : List Text} {c : Char}

/-! ## Joining -/

theorem joinWith_cons (h : ls ≠ []) : joinWith sep (l :: ls) = l ++ sep ++ joinWith sep ls := by
  cases ls with
  | nil => contradiction
  | cons k ls => rfl

theorem joinWith_append (hl : ls ≠ []) (hk : ks ≠ []) :
    joinWith sep (ls ++ ks) = joinWith sep ls ++ sep ++ joinWith sep ks := by
  induction ls with
  | nil => contradiction
  | cons l ls ih =>
    by_cases hne : ls = []
    · subst hne
      exact joinWith_cons hk
    · rw [List.cons_append, joinWith_cons (by simp [hne]), ih hne, joinWith_cons hne]
      simp only [List.append_assoc]

theorem forall_mem_joinWith {P : Char → Prop} (hsep : ∀ c ∈ sep, P c)
    (h : ∀ l ∈ ls, ∀ c ∈ l, P c) : ∀ c ∈ joinWith sep ls, P c := by
  induction ls with
  | nil => simp [joinWith]
  | cons l ls ih =>
    have hl := h l List.mem_cons_self
    have hls := ih fun k hk => h k (List.mem_cons_of_mem _ hk)
    by_cases hne : ls = []
    · subst hne
      exact hl
    · intro c hc
      rw [joinWith_cons hne, List.mem_append, List.mem_append] at hc
      rcases hc with (hc | hc) | hc
      · exact hl c hc
      · exact hsep c hc
      · exact hls c hc

theorem unlines_cons (h : ls ≠ []) : unlines (l :: ls) = l ++ '\n' :: unlines ls := by
  rw [unlines, joinWith_cons h, List.append_assoc]
  rfl

theorem unlines_append (hl : ls ≠ []) (hk : ks ≠ []) :
    unlines (ls ++ ks) = unlines ls ++ '\n' :: unlines ks := by
  rw [unlines, joinWith_append hl hk, List.append_assoc]
  rfl

theorem unlines_blank_append (n : Nat) (h : ls ≠ []) :
    unlines (List.replicate n [] ++ ls) = List.replicate n '\n' ++ unlines ls := by
  induction n with
  | zero => rfl
  | succ n ih =>
    rw [List.replicate_succ, List.cons_append, unlines_cons (by simp [h]), ih]
    rfl

/-! ## Counting line feeds -/

theorem lineFeeds_append (t u : Text) : lineFeeds (t ++ u) = lineFeeds t + lineFeeds u :=
  List.count_append

theorem lineFeeds_eq_zero_iff : lineFeeds t = 0 ↔ '\n' ∉ t := List.count_eq_zero

theorem lineFeeds_unlines (h : ∀ l ∈ ls, '\n' ∉ l) : lineFeeds (unlines ls) = ls.length - 1 := by
  induction ls with
  | nil => rfl
  | cons l ls ih =>
    have hl := lineFeeds_eq_zero_iff.mpr (h l List.mem_cons_self)
    have hls := ih fun k hk => h k (List.mem_cons_of_mem _ hk)
    by_cases hne : ls = []
    · subst hne
      exact hl
    · have hcons : lineFeeds ('\n' :: unlines ls) = 1 + lineFeeds (unlines ls) :=
        lineFeeds_append ['\n'] _
      have hpos := List.length_pos_iff.mpr hne
      rw [unlines_cons hne, lineFeeds_append, hl, hcons, hls, List.length_cons]
      omega

/-! ## Splitting -/

theorem takeWhile_ne_lineFeed (hn : '\n' ∉ l) (rest : Text) :
    (l ++ rest).takeWhile (· ≠ '\n') = l ++ rest.takeWhile (· ≠ '\n') :=
  List.takeWhile_append_of_pos fun c hc => by simpa using fun heq : c = '\n' => hn (heq ▸ hc)

/-- A character that does not end a line belongs to the first line. -/
theorem lines_cons (hn : c ≠ '\n') (hr : c = '\r' → t.head? ≠ some '\n') :
    lines (c :: t) = (c :: (lines t).headD []) :: (lines t).tail := by
  rw [lines]
  · cases lines t <;> rfl
  · exact hn
  · rintro rest hc rfl
    exact hr hc rfl

/-- The line without the carriage return of its line ending. -/
def dropReturn (l : Text) : Text := (dropEnd? '\r' l).getD l

theorem dropReturn_cons (h : l ≠ []) : dropReturn (c :: l) = c :: dropReturn l := by
  unfold dropReturn dropEnd?
  rw [List.getLast?_cons_of_ne_nil h, List.dropLast_cons_of_ne_nil h]
  split <;> rfl

theorem dropReturn_of_getLast?_ne (h : l.getLast? ≠ some '\r') : dropReturn l = l := by
  simp [dropReturn, dropEnd?, h]

theorem exists_dropReturn_cons (h : c ≠ '\r') : ∃ rest, dropReturn (c :: l) = c :: rest := by
  by_cases hl : l = []
  · subst hl
    exact ⟨[], dropReturn_of_getLast?_ne (by simpa using h)⟩
  · exact ⟨dropReturn l, dropReturn_cons hl⟩

theorem dropReturn_append (h : l ≠ []) : dropReturn (t ++ l) = t ++ dropReturn l := by
  induction t with
  | nil => rfl
  | cons c t ih => rw [List.cons_append, dropReturn_cons (by simp [h]), ih, List.cons_append]

/-- A line is read up to its line feed. -/
theorem lines_append_lineFeed (hn : '\n' ∉ l) :
    lines (l ++ '\n' :: t) = dropReturn l :: lines t := by
  induction l with
  | nil => rfl
  | cons c l ih =>
    simp only [List.mem_cons, not_or] at hn
    by_cases hl : l = []
    · subst hl
      by_cases hc : c = '\r'
      · subst hc
        rfl
      · have hlast : [c].getLast? ≠ some '\r' := by simpa using hc
        rw [dropReturn_of_getLast?_ne hlast]
        exact lines_cons (Ne.symm hn.1) fun h => absurd h hc
    · have hhead : (l ++ '\n' :: t).head? ≠ some '\n' := by
        obtain ⟨d, l, rfl⟩ := List.exists_cons_of_ne_nil hl
        simpa using fun h : d = '\n' => hn.2 (by simp [h])
      rw [List.cons_append, lines_cons (Ne.symm hn.1) fun _ => hhead, ih hn.2, dropReturn_cons hl]
      rfl

/-- A text without line feeds is one line. -/
theorem lines_of_lineFeed_not_mem (hn : '\n' ∉ l) (h : l ≠ []) : lines l = [l] := by
  induction l with
  | nil => contradiction
  | cons c l ih =>
    simp only [List.mem_cons, not_or] at hn
    have hhead : l.head? ≠ some '\n' := fun hhead => hn.2 (List.mem_of_mem_head? hhead)
    rw [lines_cons (Ne.symm hn.1) fun _ => hhead]
    by_cases hl : l = []
    · simp [hl, lines]
    · simp [ih hn.2 hl]

/-- A line that ends with the text keeps a carriage return. -/
theorem lines_line_append (hn : '\n' ∉ l) (hl : l ≠ []) (h : ∀ c ∈ t.head?, c = '\n') :
    lines (l ++ t) = (if t = [] then l else dropReturn l) :: lines t.tail := by
  cases t with
  | nil =>
    rw [List.append_nil, lines_of_lineFeed_not_mem hn hl]
    rfl
  | cons c t =>
    obtain rfl := h c rfl
    rw [lines_append_lineFeed hn, if_neg (List.cons_ne_nil _ _)]
    rfl

/-- Joined lines are read back. -/
theorem lines_unlines (hn : ∀ l ∈ ls, '\n' ∉ l) (hr : ∀ l ∈ ls, '\r' ∉ l)
    (hlast : ls.getLast? ≠ some []) : lines (unlines ls) = ls := by
  induction ls with
  | nil => rfl
  | cons l ls ih =>
    have hnl := hn l List.mem_cons_self
    have hrl := hr l List.mem_cons_self
    by_cases hls : ls = []
    · subst hls
      have hl : l ≠ [] := by simpa using hlast
      exact lines_of_lineFeed_not_mem hnl hl
    · have hreturn : l.getLast? ≠ some '\r' := fun h => hrl (List.mem_of_mem_getLast? h)
      rw [unlines_cons hls, lines_append_lineFeed hnl, dropReturn_of_getLast?_ne hreturn]
      rw [List.getLast?_cons_of_ne_nil hls] at hlast
      rw [ih (fun k hk => hn k (List.mem_cons_of_mem _ hk))
        (fun k hk => hr k (List.mem_cons_of_mem _ hk)) hlast]

/-- The characters of a line are characters of the text, and none is a line feed. -/
theorem mem_of_mem_lines {t l : Text} (hl : l ∈ lines t) {c : Char} (hc : c ∈ l) :
    c ∈ t ∧ c ≠ '\n' := by
  fun_induction lines t generalizing l c with
  | case1 => cases hl
  | case2 rest ih =>
    rcases List.mem_cons.mp hl with rfl | hl
    · cases hc
    · exact ⟨List.mem_cons_of_mem _ (ih hl hc).1, (ih hl hc).2⟩
  | case3 rest ih =>
    rcases List.mem_cons.mp hl with rfl | hl
    · cases hc
    · exact ⟨List.mem_cons_of_mem _ (List.mem_cons_of_mem _ (ih hl hc).1), (ih hl hc).2⟩
  | case4 d rest hd =>
    rw [List.mem_singleton.mp hl, List.mem_singleton] at hc
    subst hc
    exact ⟨List.mem_cons_self, hd⟩
  | case5 d rest hd _ line more hlines ih =>
    rw [hlines] at ih
    rcases List.mem_cons.mp hl with rfl | hl
    · rcases List.mem_cons.mp hc with rfl | hc
      · exact ⟨List.mem_cons_self, hd⟩
      · have := ih List.mem_cons_self hc
        exact ⟨List.mem_cons_of_mem _ this.1, this.2⟩
    · have := ih (List.mem_cons_of_mem _ hl) hc
      exact ⟨List.mem_cons_of_mem _ this.1, this.2⟩

theorem lines_eq_nil_iff : lines t = [] ↔ t = [] := by
  fun_cases lines t <;> simp

/-- A text is its lines joined, if only single line feeds between lines end its lines. -/
theorem unlines_lines (hr : '\r' ∉ t) (hlast : t.getLast? ≠ some '\n') :
    unlines (lines t) = t := by
  fun_induction lines t with
  | case1 => rfl
  | case2 rest ih =>
    have hrest : rest ≠ [] := by
      rintro rfl
      simp at hlast
    rw [List.getLast?_cons_of_ne_nil hrest] at hlast
    rw [unlines_cons (by simpa [lines_eq_nil_iff] using hrest), ih (by simp_all) hlast]
    rfl
  | case3 rest => simp at hr
  | case4 d rest _ _ hlines =>
    rw [lines_eq_nil_iff.mp hlines]
    rfl
  | case5 d rest _ _ line more hlines ih =>
    have hrest : rest ≠ [] := by
      rintro rfl
      cases hlines
    rw [List.getLast?_cons_of_ne_nil hrest] at hlast
    have := ih (by simp_all) hlast
    rw [hlines] at this
    by_cases hmore : more = []
    · subst hmore
      exact congrArg (d :: ·) this
    · rw [unlines_cons hmore] at this ⊢
      rw [List.cons_append, this]

/-- Two texts with a line feed between them have the lines of both, if the first one does not end
within a line ending. -/
theorem lines_append {t u : Text} (ht : t ≠ []) (hfeed : t.getLast? ≠ some '\n')
    (hreturn : t.getLast? ≠ some '\r') : lines (t ++ '\n' :: u) = lines t ++ lines u := by
  fun_induction lines t with
  | case1 => contradiction
  | case2 rest ih =>
    have hrest : rest ≠ [] := by
      rintro rfl
      simp at hfeed
    rw [List.getLast?_cons_of_ne_nil hrest] at hfeed hreturn
    rw [List.cons_append, lines, ih hrest hfeed hreturn, List.cons_append]
  | case3 rest ih =>
    have hrest : rest ≠ [] := by
      rintro rfl
      simp at hfeed
    rw [List.getLast?_cons_of_ne_nil (by simp), List.getLast?_cons_of_ne_nil hrest]
      at hfeed hreturn
    rw [List.cons_append, List.cons_append, lines, ih hrest hfeed hreturn, List.cons_append]
  | case4 c rest hc hcr hlines =>
    -- The only character of the text begins no line ending with the line feed behind it.
    obtain rfl := lines_eq_nil_iff.mp hlines
    have hne : c ≠ '\r' := by simpa using hreturn
    rw [List.singleton_append, lines_cons hc fun h => absurd h hne, lines]
    rfl
  | case5 c rest hc hcr line more hlines ih =>
    have hrest : rest ≠ [] := by
      rintro rfl
      cases hlines
    rw [List.getLast?_cons_of_ne_nil hrest] at hfeed hreturn
    have hrec := ih hrest hfeed hreturn
    rw [hlines] at hrec
    rw [List.cons_append, lines]
    · rw [hrec]
      rfl
    · exact hc
    · intro more' hc' hmore
      obtain ⟨d, rest, rfl⟩ := List.exists_cons_of_ne_nil hrest
      exact hcr rest hc' (by rw [(List.cons.inj hmore).1])

/-- A text that ends in a line feed has whole lines. -/
theorem lines_append_of_ended {u : Text} (h : ∀ c ∈ t.getLast?, c = '\n') :
    lines (t ++ u) = lines t ++ lines u := by
  fun_induction lines t with
  | case1 => rfl
  | case2 rest ih =>
    have hrest : ∀ c ∈ rest.getLast?, c = '\n' := fun c hc => h c (List.mem_getLast?_cons hc)
    rw [List.cons_append, lines, ih hrest, List.cons_append]
  | case3 rest ih =>
    have hrest : ∀ c ∈ rest.getLast?, c = '\n' := fun c hc =>
      h c (List.mem_getLast?_cons (List.mem_getLast?_cons hc))
    rw [List.cons_append, List.cons_append, lines, ih hrest, List.cons_append]
  | case4 c rest hc _ hlines =>
    obtain rfl := lines_eq_nil_iff.mp hlines
    exact absurd (h c rfl) hc
  | case5 c rest hc hcr line more hlines ih =>
    have hrest : ∀ c ∈ rest.getLast?, c = '\n' := fun c hc => h c (List.mem_getLast?_cons hc)
    have hne : rest ≠ [] := by
      rintro rfl
      cases hlines
    obtain ⟨d, rest, rfl⟩ := List.exists_cons_of_ne_nil hne
    have hreturn : c = '\r' → (d :: rest ++ u).head? ≠ some '\n' := fun hc' hd =>
      hcr rest hc' (by rw [Option.some.inj hd])
    rw [List.cons_append, lines_cons hc hreturn, ih hrest, hlines]
    rfl

/-- Only a line feed at the end of the text makes its last line empty. -/
theorem getLast?_lines_ne (hr : '\r' ∉ t) (hlast : t.getLast? ≠ some '\n') :
    (lines t).getLast? ≠ some [] := by
  intro h
  obtain ⟨ls, hls⟩ := List.getLast?_eq_some_iff.mp h
  have ht := unlines_lines hr hlast
  rw [hls] at ht
  by_cases hne : ls = []
  · subst hne
    rw [← ht] at hls
    cases hls
  · rw [unlines_append hne (by simp)] at ht
    rw [← ht] at hlast
    simp [unlines, joinWith] at hlast

end Dockerfile.Text
