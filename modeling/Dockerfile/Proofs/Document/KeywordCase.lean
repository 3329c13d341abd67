import Dockerfile.Proofs.Document.Layout
import Dockerfile.Proofs.Document.TagSequence
import Dockerfile.Proofs.Reading.Recased

/-!
# Documents with keywords in another case

* `Document.Recased`: documents that differ in the case of keywords.
* `Document.Recased.render_eq`, `Document.Recased.baseImage_eq`, `Document.Recased.request`: they
  are written alike, have the same base image, and remain so when it is given another tag.
* `Document.exists_parseWith_recased`: so are the documents that are read from texts which differ in
  this way.
-/

namespace Dockerfile

open Text

/-! ## Instructions -/

namespace Instruction.Recased

variable {i j : Instruction}

theorem foldCase_name (h : i.Recased j) : foldCase j.name = foldCase i.name :=
  sameLetters_iff.mp h.name

/-- The name is written in capital letters. -/
theorem render_eq (h : i.Recased j) : j.render = i.render := by
  have hupper : upper j.name = upper i.name := upper_congr h.foldCase_name h.isAlphanum
  have hkeyword : j.keyword? = i.keyword? := Keyword.ofName?_congr h.foldCase_name
  simp only [render, arguments, hupper, hkeyword, h.flags, h.values]

theorem hasKeyword_eq (h : i.Recased j) (k : Option Keyword) : j.hasKeyword k = i.hasKeyword k := by
  cases k with
  | none => rfl
  | some k =>
    show sameLetters k.spelling j.name = sameLetters k.spelling i.name
    rw [sameLetters, h.foldCase_name]
    rfl

theorem imagePath_eq (h : i.Recased j) : j.imagePath = i.imagePath := by
  simp only [imagePath, h.values, h.first]

theorem withImagePath (h : i.Recased j) (path : Text) :
    (i.withImagePath path).Recased (j.withImagePath path) where
  isAlphanum := h.isAlphanum
  name := h.name
  flags := h.flags
  values := congrArg (path :: List.tail ·) h.values
  first := h.first
  last := h.last
  source := h.source

end Instruction.Recased

theorem Layout.render_recased {is js : List Instruction} {c : Continuation} {line : Nat}
    (h : List.Forall₂ Instruction.Recased is js) : render c line js = render c line is := by
  induction h generalizing line with
  | nil => rfl
  | @cons i j is js hij _ ih =>
    have hnext : next c line j = next c line i :=
      next_congr (congrArg lineFeeds hij.render_eq) hij.first hij.last
    rw [render_cons, render_cons, hnext, ih, place, place, hij.first, hij.render_eq]

/-! ## Documents -/

namespace Document

/-- The documents differ in the case of keywords only. -/
def Recased (d e : Document) : Prop :=
  List.Forall₂ Instruction.Recased d.instructions e.instructions

variable {d e : Document} {tag : Text}

theorem Recased.render_eq (h : d.Recased e) (options : RenderOptions) :
    e.render options = d.render options := by
  have htext : e.text options = d.text options := Layout.render_recased h
  simp only [render, logged, htext, length, List.Forall₂.length_eq h]

theorem findLast?_forall₂ {α β : Type} {R : α → β → Prop} {p : α → Bool} {q : β → Bool}
    {l : List α} {l' : List β} (h : List.Forall₂ R l l') (hp : ∀ a b, R a b → q b = p a) :
    Option.Rel (fun x y => x.1 = y.1 ∧ R x.2 y.2) (findLast? p l) (findLast? q l') := by
  induction h with
  | nil => exact .none
  | @cons a b l l' hab _ ih =>
    rw [findLast?, findLast?]
    generalize findLast? p l = found, findLast? q l' = found' at ih
    cases ih with
    | some hxy => exact .some ⟨congrArg (· + 1) hxy.1, hxy.2⟩
    | none =>
      simp only [hp a b hab]
      cases p a with
      | true => exact .some ⟨rfl, hab⟩
      | false => exact .none

/-- The base image is declared by the same instruction. -/
theorem Recased.base (h : d.Recased e) :
    (d.base = .error .noBaseImage ∧ e.base = .error .noBaseImage) ∨
      ∃ index i j, d.base = .ok (index, i) ∧ e.base = .ok (index, j) ∧ i.Recased j := by
  have htail : List.Forall₂ Instruction.Recased d.instructions.tail e.instructions.tail := by
    unfold Recased at h
    generalize d.instructions = is, e.instructions = js at h
    cases h with
    | nil => exact .nil
    | cons _ h => exact h
  have hlast := findLast?_forall₂ htail fun i j hij => hij.hasKeyword_eq (some .fromImage)
  unfold Document.base
  generalize findLast? _ d.instructions.tail = found, findLast? _ e.instructions.tail = found'
    at hlast
  cases hlast with
  | none => exact .inl ⟨rfl, rfl⟩
  | @some x y hxy =>
    obtain ⟨hindex, hij⟩ := hxy
    exact .inr ⟨x.1 + 1, x.2, y.2, rfl, by rw [hindex], hij⟩

theorem Recased.baseImage_eq (h : d.Recased e) : e.baseImage = d.baseImage := by
  unfold baseImage
  rcases h.base with ⟨hd, he⟩ | ⟨index, i, j, hd, he, hij⟩
  · rw [hd, he]
  · rw [hd, he]
    simp only [bind, Except.bind, hij.imagePath_eq]

theorem forall₂_set {α β : Type} {R : α → β → Prop} {l : List α} {l' : List β} {a : α} {b : β}
    (h : List.Forall₂ R l l') (hab : R a b) (k : Nat) :
    List.Forall₂ R (l.set k a) (l'.set k b) := by
  induction h generalizing k with
  | nil => exact .nil
  | cons hhead htail ih =>
    cases k with
    | zero => exact .cons hab htail
    | succ k => exact .cons hhead (ih k)

/-- A request fails or succeeds for both documents, and leaves them alike. -/
theorem Recased.request (h : d.Recased e) (tag : Text) :
    (e.request tag).1 = (d.request tag).1 ∧ (d.request tag).2.Recased (e.request tag).2 := by
  unfold Document.request
  cases hd : (d.retag tag).value with
  | error error =>
    have he : (e.retag tag).value = .error error := by
      rw [retag_eq_error, h.baseImage_eq, ← retag_eq_error]
      exact hd
    rw [he]
    exact ⟨rfl, h⟩
  | ok d' =>
    obtain ⟨index, i, path, image, hbase, hi, hpath, himage, rfl⟩ := retag_eq_ok.mp hd
    rcases h.base with ⟨hnone, -⟩ | ⟨k, i', j, hd', he', hij⟩
    · rw [base_eq_ok.mpr ⟨hbase, hi⟩] at hnone
      cases hnone
    · rw [base_eq_ok.mpr ⟨hbase, hi⟩] at hd'
      cases hd'
      obtain ⟨hbase', hj⟩ := base_eq_ok.mp he'
      rw [retag_eq_ok.mpr ⟨index, j, path, image, hbase', hj, by rwa [hij.values], himage, rfl⟩]
      exact ⟨rfl, forall₂_set h (hij.withImagePath _) index⟩

theorem parseWith_eq_ok {reader : Reader} {text : Text} :
    (parseWith reader text).value = .ok d ↔ (reader text).value = .ok d.instructions := by
  show Except.map Document.mk (reader text).value = .ok d ↔ _
  cases (reader text).value with
  | error e => simp [Except.map]
  | ok is => cases d; simp [Except.map]

/-- Keywords may be written in any case: the document that is read has the same flags, values and
lines, is written alike, has the same base image, and all this remains so when the base image is
given another tag. -/
theorem exists_parseWith_recased {options : ReadOptions} {escape : Char} {t u : Text}
    (hvalid : Escape.isValid options.escape)
    (h : (parseWith (Reader.byLines options) t).value = .ok d)
    (hescape : Escape.effective options.escape (lines t) = .ok escape)
    (hu : Reader.KeywordsRecased escape d.instructions t u) :
    ∃ e, (parseWith (Reader.byLines options) u).value = .ok e ∧
      List.Forall₂ (fun i j : Instruction => sameLetters j.name i.name ∧ j.flags = i.flags ∧
        j.values = i.values ∧ j.first = i.first ∧ j.last = i.last) d.instructions e.instructions ∧
      (∀ render, e.render render = d.render render) ∧ e.baseImage = d.baseImage ∧
      ∀ tag, (e.request tag).1 = (d.request tag).1 ∧
        ∀ render, (e.request tag).2.render render = (d.request tag).2.render render := by
  obtain ⟨js, hjs, hall⟩ := Reader.exists_byLines_recased hvalid (parseWith_eq_ok.mp h) hescape hu
  have hrecased : d.Recased { instructions := js } := hall
  refine ⟨{ instructions := js }, parseWith_eq_ok.mpr hjs, hall.imp fun i j hij => ?_,
    hrecased.render_eq, hrecased.baseImage_eq, fun tag => ?_⟩
  · exact ⟨hij.name, hij.flags, hij.values, hij.first, hij.last⟩
  · obtain ⟨hresult, hafter⟩ := hrecased.request tag
    exact ⟨hresult, hafter.render_eq⟩

/-- A text whose second instruction starts with a line that consists of the escape character. The
third one opens a heredoc with a keyword in it. -/
def lowerText : Text :=
  "arg a
\\
 from b:c
run <<D
run
D".toList

/-- The same with some of the keywords in another case. -/
def mixedCaseText : Text :=
  "ARG a
\\
 From b:c
rUN <<D
run
D".toList

def lower : Document :=
  { instructions :=
    [{ name := "arg".toList, values := ["a".toList], first := 1, last := 1,
       source := "arg a".toList },
      { name := "from".toList, values := ["b:c".toList], first := 2, last := 3,
        source := "from b:c".toList },
      { name := "run".toList, values := ["<<D\nrun\nD".toList], first := 4, last := 6,
        source := "run <<D\nrun\nD".toList }] }

theorem keywordsRecased_lower :
    Reader.KeywordsRecased '\\' lower.instructions lowerText mixedCaseText := by
  have hlower : lines lowerText = ["arg a".toList, "\\".toList, " from b:c".toList,
      "run <<D".toList, "run".toList, "D".toList] := by
    decide +kernel
  have hmixed : lines mixedCaseText = ["ARG a".toList, "\\".toList, " From b:c".toList,
      "rUN <<D".toList, "run".toList, "D".toList] := by
    decide +kernel
  refine ⟨by decide +kernel, fun n l k hl hk => ?_⟩
  rw [hlower] at hl
  rw [hmixed] at hk
  match n, hl, hk with
  | 0, rfl, rfl =>
    exact .inr ⟨_, .head _, by decide +kernel, [], "ARG".toList, " a".toList, by simp [Blank],
      by decide, by decide, by decide⟩
  | 1, rfl, rfl => exact .inl rfl
  | 2, rfl, rfl =>
    exact .inr ⟨_, .tail _ (.head _), by decide +kernel, [' '], "From".toList, " b:c".toList,
      by simp [Blank, isSpace], by decide, by decide, by decide⟩
  | 3, rfl, rfl =>
    exact .inr ⟨_, .tail _ (.tail _ (.head _)), by decide +kernel, [], "rUN".toList,
      " <<D".toList, by simp [Blank], by decide, by decide, by decide⟩
  | 4, rfl, rfl => exact .inl rfl
  | 5, rfl, rfl => exact .inl rfl

theorem exists_parseWith_recased_lower :
    ∃ e, (parseWith (Reader.byLines {}) mixedCaseText).value = .ok e ∧
      e.baseImage = lower.baseImage ∧ ∀ render, e.render render = lower.render render := by
  have h : (parseWith (Reader.byLines {}) lowerText).value = .ok lower := by decide +kernel
  obtain ⟨e, he, -, hrender, hbase, -⟩ :=
    exists_parseWith_recased (by decide) h (by decide +kernel) keywordsRecased_lower
  exact ⟨e, he, hbase, hrender⟩

end Document

end Dockerfile
