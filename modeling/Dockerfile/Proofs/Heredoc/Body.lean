import Dockerfile.Proofs.Heredoc.Scan
import Mathlib.Data.List.Forall2

/-!
# Heredoc bodies

* `Heredoc.FilledBy`: the lines that heredocs take, with their terminators.
* `Heredoc.FilledBy.exists_blocks`: one block of lines for each heredoc, up to the first terminator.
* `Heredoc.Unterminated`, `Heredoc.exists_filledBy_or`: otherwise a terminator is missing.
* `Heredoc.IsWord`, `Heredoc.isWord_of_mem_openedBy`: the words that end them.
* `Heredoc.trim_of_closes`: such a line consists of the word, and of tabs in front of it.
* `Heredoc.FilledBy.exists_closes`: the last of these lines is a terminator, so it is not empty and
  holds no carriage return.
-/

namespace Dockerfile.Heredoc

open Text

variable {h : Heredoc} {hs : List Heredoc} {l t : Text} {ls : List Text}

/-- The lines that the heredocs take one after another, with their terminators. -/
inductive FilledBy : List Heredoc → List Text → Prop
  | done : FilledBy [] []
  | line {h : Heredoc} {hs : List Heredoc} {l : Text} {ls : List Text} :
      h.closes l = false → FilledBy (h :: hs) ls → FilledBy (h :: hs) (l :: ls)
  | terminator {h : Heredoc} {hs : List Heredoc} {l : Text} {ls : List Text} :
      h.closes l → FilledBy hs ls → FilledBy (h :: hs) (l :: ls)

@[simp] theorem filledBy_nil : FilledBy [] ls ↔ ls = [] := by
  constructor
  · rintro ⟨⟩
    rfl
  · rintro rfl
    exact .done

theorem FilledBy.ne_nil (hf : FilledBy (h :: hs) ls) : ls ≠ [] := by
  cases hf <;> simp

/-- Where a heredoc is open, there is a body. -/
theorem FilledBy.body_ne_nil (hf : FilledBy hs ls) (hne : hs ≠ []) : ls ≠ [] := by
  obtain ⟨h, later, rfl⟩ := List.exists_cons_of_ne_nil hne
  exact hf.ne_nil

/-- Each heredoc takes the lines up to its first terminator, and the next one goes on behind it. -/
theorem FilledBy.exists_blocks (hf : FilledBy hs ls) :
    ∃ blocks, List.Forall₂ (fun h block => UpTo h.closes block) hs blocks ∧
      ls = blocks.flatten := by
  induction hf with
  | done => exact ⟨[], .nil, rfl⟩
  | line hclose _ ih =>
    obtain ⟨blocks, hblocks, rfl⟩ := ih
    cases hblocks with
    | cons hblock hblocks => exact ⟨_, .cons (hblock.cons hclose) hblocks, rfl⟩
  | terminator hclose _ ih =>
    obtain ⟨blocks, hblocks, rfl⟩ := ih
    exact ⟨_, .cons (.singleton hclose) hblocks, rfl⟩

/-- Behind the lines that the heredocs in front of `marker` take, no line ends its body. -/
inductive Unterminated (marker : Heredoc) : List Heredoc → List Text → Prop
  | here {hs : List Heredoc} {ls : List Text} :
      (∀ l ∈ ls, marker.closes l = false) → Unterminated marker (marker :: hs) ls
  | later {h : Heredoc} {hs : List Heredoc} {block ls : List Text} :
      UpTo h.closes block → Unterminated marker hs ls → Unterminated marker (h :: hs) (block ++ ls)

theorem FilledBy.block {block : List Text} (hf : FilledBy hs ls) (hblock : UpTo h.closes block) :
    FilledBy (h :: hs) (block ++ ls) := by
  obtain ⟨front, l, rfl, hfront, hl⟩ := hblock
  induction front with
  | nil => exact .terminator hl hf
  | cons k front ih =>
    obtain ⟨hk, hfront⟩ := List.forall_mem_cons.mp hfront
    exact .line hk (ih hfront)

/-- The heredocs take the first lines below them, or one of them lacks its terminator. -/
theorem exists_filledBy_or (hs : List Heredoc) (ls : List Text) :
    (∃ body rest, ls = body ++ rest ∧ FilledBy hs body) ∨ ∃ marker, Unterminated marker hs ls := by
  induction hs generalizing ls with
  | nil => exact .inl ⟨[], ls, rfl, .done⟩
  | cons h hs ih =>
    rcases exists_upTo_or h.closes ls with hnone | ⟨block, rest, rfl, hblock⟩
    · exact .inr ⟨h, .here hnone⟩
    · rcases ih rest with ⟨body, rest, rfl, hbody⟩ | ⟨marker, hmarker⟩
      · exact .inl ⟨block ++ body, rest, (List.append_assoc ..).symm, hbody.block hblock⟩
      · exact .inr ⟨marker, .later hblock hmarker⟩

/-! ## Terminators -/

/-- A word that can end a body. -/
def IsWord (word : Text) : Prop := word ≠ [] ∧ ∀ c ∈ word, isWordChar c

theorem isWord_takeWhile (h : t.takeWhile isWordChar ≠ []) : IsWord (t.takeWhile isWordChar) :=
  ⟨h, fun _ hc => List.mem_takeWhile_imp hc⟩

theorem isWord_of_word? {word : Text} (h : word? t = some word) : IsWord word := by
  unfold word? at h
  split at h
  · cases h
  · simp only at h
    split at h
    · split at h
      · rename_i hword
        cases h
        exact isWord_takeWhile hword.1
      · cases h
    · split at h
      · rename_i hword
        cases h
        exact isWord_takeWhile hword
      · cases h

theorem isWord_of_ofText? (hh : ofText? t = some h) : IsWord h.word := by
  unfold ofText? at hh
  split at hh
  all_goals
    obtain ⟨word, hword, rfl⟩ := Option.map_eq_some_iff.mp hh
    exact isWord_of_word? hword

theorem isWord_of_mem_scan (hh : h ∈ scan t) : IsWord h.word := by
  fun_induction scan t with
  | case1 rest ih =>
    rcases List.mem_append.mp hh with hh | hh
    · exact isWord_of_ofText? (Option.mem_toList.mp hh)
    · exact ih hh
  | case2 c rest _ ih => exact ih hh
  | case3 => cases hh

theorem isWord_of_mem_openedBy (hh : h ∈ openedBy t) : IsWord h.word := by
  unfold openedBy at hh
  split at hh
  · exact isWord_of_mem_scan hh
  · cases hh

theorem ne_nil_of_closes (hword : IsWord h.word) (hl : h.closes l) : l ≠ [] := by
  rintro rfl
  refine hword.1 (Eq.symm ?_)
  simpa [closes] using hl

theorem IsWord.trimmed (hword : IsWord t) : Trimmed t := by
  have hspace : ∀ c ∈ t, isSpace c = false := fun c hc =>
    Bool.eq_false_iff.mpr fun h => by
      have hchar := hword.2 c hc
      rw [isWordChar_of_isSpace h] at hchar
      cases hchar
  exact ⟨fun c hc => hspace c (List.mem_of_mem_head? hc),
    fun c hc => hspace c (List.mem_of_mem_getLast? hc)⟩

/-- A line that ends a body is the word, with nothing but tabs in front. -/
theorem trim_of_closes (hword : IsWord h.word) (hl : h.closes l) : trim l = h.word := by
  rw [closes, decide_eq_true_iff] at hl
  split at hl
  · have hcut : l = l.takeWhile (· = '\t') ++ l.dropWhile (· = '\t') :=
      List.takeWhile_append_dropWhile.symm
    have htabs : Blank (l.takeWhile (· = '\t')) := fun c hc => by
      obtain rfl : c = '\t' := by simpa using List.mem_takeWhile_imp hc
      decide
    rw [hcut, hl, trim, trimStart_append_of_blank htabs]
    exact hword.trimmed.trim_eq
  · rw [hl, hword.trimmed.trim_eq]

/-- Before the word on the last line of a body, only tabs may stand. -/
theorem mem_of_closes (hl : h.closes l) {c : Char} (hc : c ∈ l) : c = '\t' ∨ c ∈ h.word := by
  rw [closes, decide_eq_true_iff] at hl
  split at hl
  · have hcut : l = l.takeWhile (· = '\t') ++ l.dropWhile (· = '\t') :=
      List.takeWhile_append_dropWhile.symm
    rw [hcut, hl] at hc
    rcases List.mem_append.mp hc with hc | hc
    · exact .inl (by simpa using List.mem_takeWhile_imp hc)
    · exact .inr hc
  · exact .inr (hl ▸ hc)

/-- The last line of a body is a terminator. -/
theorem FilledBy.exists_closes (hf : FilledBy hs ls) (hl : ls.getLast? = some l) :
    ∃ h ∈ hs, h.closes l := by
  induction hf with
  | done => cases hl
  | line _ hf ih =>
    rw [List.getLast?_cons_of_ne_nil hf.ne_nil] at hl
    exact ih hl
  | @terminator h hs k ls hk hf ih =>
    by_cases hls : ls = []
    · subst hls
      cases hl
      exact ⟨h, List.mem_cons_self, hk⟩
    · rw [List.getLast?_cons_of_ne_nil hls] at hl
      obtain ⟨h', hmem, hclose⟩ := ih hl
      exact ⟨h', List.mem_cons_of_mem _ hmem, hclose⟩

theorem FilledBy.getLast?_ne (hf : FilledBy hs ls) (hwords : ∀ h ∈ hs, IsWord h.word) :
    ls.getLast? ≠ some [] := fun hlast => by
  obtain ⟨h, hmem, hclose⟩ := hf.exists_closes hlast
  exact ne_nil_of_closes (hwords h hmem) hclose rfl

/-- No carriage return stands on the last line of a body. -/
theorem FilledBy.return_not_mem (hf : FilledBy hs ls) (hwords : ∀ h ∈ hs, IsWord h.word)
    (hl : ls.getLast? = some l) : '\r' ∉ l := fun hmem => by
  obtain ⟨h, hh, hclose⟩ := hf.exists_closes hl
  rcases mem_of_closes hclose hmem with htab | hword
  · cases htab
  · exact absurd ((hwords h hh).2 _ hword) (by decide)

end Dockerfile.Heredoc
