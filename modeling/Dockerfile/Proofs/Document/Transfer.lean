import Dockerfile.Proofs.Document.Overflow
import Dockerfile.Proofs.Transfer

/-!
# Documents in sources and sinks that cut them anywhere

* `Document.ofSource_of_toBytes`, `Document.ofSource_of_ne_toBytes`: the bytes that a source
  delivers decide which document is in it.
* `Document.write?_of_text?_eq_none`, `Document.exists_write?_eq`, `Document.write?_of_cursor_lt`:
  what a build offers to a sink.
* `Document.ofSource_write`: what a sink has taken of a document when the writing ends, and that a
  document that was written is read like its text.
-/

namespace Dockerfile.Document

open Text

variable {source : Source} {bytes : List UInt8} {text : Text}

/-! ## Reading -/

theorem ofSource_of_toBytes (h : source.Delivers (toBytes text)) :
    ofSource source = parse text := by
  rw [ofSource, Source.readText_of_delivers h, ofBytes?_toBytes]

theorem ofSource_of_ne_toBytes (h : source.Delivers bytes) (hbytes : ∀ text, bytes ≠ toBytes text) :
    ofSource source = pure (.error .notUtf8) := by
  rw [ofSource, Source.readText_of_delivers h, ofBytes?_eq_none_iff.mpr hbytes]

/-! ## Writing -/

variable {o : Overflow} {d : Document} {options : RenderOptions} {σ : Type} {sink : Sink σ}
  {taken : σ → List UInt8} {room : σ → Nat → Prop}

theorem write?_of_text?_eq_none (h : d.text? o options = none) (s : σ) :
    d.write? o options sink s = none := by
  rw [write?, render?, h]
  rfl

/-- The bytes of the text are offered to the sink. -/
theorem exists_write?_eq (h : d.text? o options = some text) (sink : Sink σ) (s : σ) :
    ∃ run, d.write? o options sink s = some run ∧ run.value = sink.writeAll s (toBytes text) :=
  ⟨_, by rw [write?, render?, h]; rfl, rfl⟩

theorem write?_of_cursor_lt (h : Layout.cursor options.continuation 1 d.instructions < UInt64.size)
    (s : σ) : d.write? o options sink s = some (d.write options sink s) := by
  rw [write?, render?_of_cursor_lt h]
  rfl

/-- A build that has a text for a document offers it to the sink. A sink with room for `n` bytes
takes the first `n` of them, and it is a failure if there are more. The bytes that a source
delivers, at whatever places it cuts them, hold the document in the text that they encode, or else
are no text. So a document that was written without a failure is read like its text. -/
theorem ofSource_write (hsink : sink.Limited taken room) (o : Overflow) (d : Document)
    (options : RenderOptions) :
    (d.text? o options = none → o = .stops ∧ ∀ s, d.write? o options sink s = none) ∧
    (∀ text s n, d.text? o options = some text → room s n →
      ∃ run, d.write? o options sink s = some run ∧
        (run.value.2 = .ok () ↔ (toBytes text).length ≤ n) ∧
        (run.value.2 ≠ .ok () → ∃ detail, run.value.2 = .error (.transfer detail)) ∧
        taken run.value.1 = taken s ++ (toBytes text).take n ∧
        ∀ source, taken s = [] → run.value.2 = .ok () → source.Delivers (taken run.value.1) →
          ofSource source = parse text) ∧
    ∀ source bytes, source.Delivers bytes →
      (∀ text, bytes = toBytes text → ofSource source = parse text) ∧
      ((∀ text, bytes ≠ toBytes text) → ofSource source = pure (.error .notUtf8)) := by
  refine ⟨fun h => ⟨(text?_eq_none_iff.mp h).1, write?_of_text?_eq_none h⟩,
    fun text s n h hn => ?_, fun source bytes h => ?_⟩
  · obtain ⟨run, hrun, hvalue⟩ := exists_write?_eq h sink s
    obtain ⟨hfits, hfails, htaken⟩ := hsink.writeAll_spec s n (toBytes text) hn
    rw [← hvalue] at hfits hfails htaken
    refine ⟨run, hrun, hfits, hfails, htaken, fun source hempty hresult hsource => ?_⟩
    have hall : taken run.value.1 = toBytes text := by
      rw [htaken, hempty, List.nil_append, List.take_of_length_le (hfits.mp hresult)]
    exact ofSource_of_toBytes (hall ▸ hsource)
  · refine ⟨?_, ofSource_of_ne_toBytes h⟩
    rintro text rfl
    exact ofSource_of_toBytes h

/-- One build offers nothing. The other one offers a text that ends with a character of two bytes, to
a sink that takes two bytes at a time and has room for all but the last byte, or for all of them.
Then the document is read back byte by byte. -/
theorem ofSource_write_farSpan :
    let sink := Sink.bounded (some 2) (.took 0)
    let text := "FROM a\nUSER é".toList
    (toBytes text).length = 14 ∧
      farSpan.write? .stops {} sink { room := some 14 } = none ∧
      ∃ cut whole, farSpan.write? .wraps {} sink { room := some 13 } = some cut ∧
        farSpan.write? .wraps {} sink { room := some 14 } = some whole ∧
        cut.value.2 ≠ .ok () ∧ cut.value.1.bytes = (toBytes text).take 13 ∧
        ofSource (.chunked 1 cut.value.1.bytes) = pure (.error .notUtf8) ∧
        whole.value.2 = .ok () ∧ ofSource (.chunked 1 whole.value.1.bytes) = parse text := by
  have hsink : (Sink.bounded (some 2) (.took 0)).Limited Sink.Store.bytes
      fun store n => store.room = some n := Sink.limited_bounded (by decide) rfl
  obtain ⟨hstops, -⟩ := ofSource_write hsink .stops farSpan {}
  obtain ⟨-, hwrite, hread⟩ := ofSource_write hsink .wraps farSpan {}
  have htext : farSpan.text? .wraps {} = some "FROM a\nUSER é".toList := by decide +kernel
  have hlength : (toBytes "FROM a\nUSER é".toList).length = 14 := by decide +kernel
  obtain ⟨cut, hcut, hcutFits, -, htaken, -⟩ := hwrite _ { room := some 13 } 13 htext rfl
  obtain ⟨whole, hwhole, hfits, -, -, hback⟩ := hwrite _ { room := some 14 } 14 htext rfl
  have hdeliver := Source.delivers_chunked (by decide : 1 ≠ 0)
  have hok := hfits.mpr (Nat.le_of_eq hlength)
  have hcutTaken : cut.value.1.bytes = (toBytes "FROM a\nUSER é".toList).take 13 := htaken
  refine ⟨hlength, (hstops (by decide +kernel)).2 _, cut, whole, hcut, hwhole, ?_, hcutTaken, ?_,
    hok, hback _ rfl hok (hdeliver _)⟩
  · rw [ne_eq, hcutFits, hlength]
    decide
  · refine (hread _ _ (hdeliver _)).2 (ofBytes?_eq_none_iff.mp ?_)
    rw [hcutTaken]
    decide +kernel

end Dockerfile.Document
