import Dockerfile.Document.Transfer

/-!
# Transfers of bytes, in pieces of any sizes

* `Source.Delivers`, `Source.readAll_eq_ok_iff`: the bytes of a source are those of its deliveries,
  one behind the other.
* `Source.readText_of_delivers`: whether they are a text does not depend on where they are cut.
* `Sink.Limited`, `Sink.limited_bounded`: sinks that fail once they have no room left.
* `Sink.Limited.writeAll_spec`: such a sink takes the first bytes, as many as it has room for.
-/

namespace Dockerfile

namespace Text

variable {bytes : List UInt8} {t : Text}

/-- Only the encoding of a text is decoded to it. -/
theorem ofBytes?_eq_some_iff : ofBytes? bytes = some t ↔ bytes = toBytes t := by
  constructor
  · intro h
    obtain ⟨s, hs, rfl⟩ := Option.map_eq_some_iff.mp h
    unfold String.fromUTF8? at hs
    split at hs
    · cases hs
      rw [toBytes, String.ofList_toList]
      rfl
    · cases hs
  · rintro rfl
    exact ofBytes?_toBytes t

theorem ofBytes?_eq_none_iff : ofBytes? bytes = none ↔ ∀ t, bytes ≠ toBytes t := by
  simp only [Option.eq_none_iff_forall_ne_some, ne_eq, ofBytes?_eq_some_iff]

end Text

/-! ## Sources -/

namespace Source

variable {source : Source} {bytes : List UInt8} {t : Text}

/-- The source delivers the bytes without a failure, some of them at each read, and then ends. -/
inductive Delivers : Source → List UInt8 → Prop
  | nil : Delivers [] []
  /-- What stands behind the end is never read. -/
  | ended {rest : Source} : Delivers (.bytes [] :: rest) []
  | cons {piece bytes : List UInt8} {rest : Source} :
      piece ≠ [] → Delivers rest bytes → Delivers (.bytes piece :: rest) (piece ++ bytes)

theorem readAll_eq_ok_iff : source.readAll = .ok bytes ↔ source.Delivers bytes := by
  constructor
  · intro h
    fun_induction readAll source generalizing bytes with
    | case1 =>
      cases h
      exact .nil
    | case2 =>
      cases h
      exact .ended
    | case3 => cases h
    | case4 b bs rest ih =>
      cases hrest : readAll rest with
      | error e =>
        rw [hrest] at h
        cases h
      | ok more =>
        rw [hrest] at h
        cases h
        exact .cons (List.cons_ne_nil b bs) (ih hrest)
  · intro h
    induction h with
    | nil => rfl
    | ended => rfl
    | @cons piece bytes rest hpiece _ ih =>
      obtain ⟨b, bs, rfl⟩ := List.exists_cons_of_ne_nil hpiece
      rw [readAll, ih]
      rfl

theorem delivers_chunked {size : Nat} (hsize : size ≠ 0) (bytes : List UInt8) :
    (chunked size bytes).Delivers bytes := by
  fun_induction chunked size bytes with
  | case1 => exact .nil
  | case2 b bs ih =>
    have hpiece : (b :: bs).take size ≠ [] := by simp [hsize]
    have hdrop : bs.drop (size - 1) = (b :: bs).drop size := by
      obtain ⟨n, rfl⟩ := Nat.exists_eq_succ_of_ne_zero hsize
      rfl
    have h := Delivers.cons hpiece ih
    have hcut : (b :: bs).take size ++ bs.drop (size - 1) = b :: bs := by
      rw [hdrop, List.take_append_drop]
    rwa [hcut] at h

theorem readText_of_delivers (h : source.Delivers bytes) :
    source.readText = match Text.ofBytes? bytes with
      | some text => .ok text
      | none => .error .notUtf8 := by
  rw [readText, readAll_eq_ok_iff.mpr h]
  rfl

end Source

/-! ## Sinks -/

namespace Sink

variable {σ : Type} {sink : Sink σ} {taken : σ → List UInt8} {room : σ → Nat → Prop}
  {s s' : σ} {bytes : List UInt8}

/-- The answer to a write that is not to be tried again. -/
def Answer.Fails : Answer → Prop
  | .took n => n = 0
  | .failure _ => True

/-- With `room s n`, the sink takes `n` bytes more, from the front of those offered and at least one
at a time. Then it fails and takes nothing. -/
structure Limited (sink : Sink σ) (taken : σ → List UInt8) (room : σ → Nat → Prop) : Prop where
  takes : ∀ s n bytes, room s n → n ≠ 0 → bytes ≠ [] → ∃ s' k, sink.write s bytes = (s', .took k) ∧
    k ≠ 0 ∧ k ≤ n ∧ k ≤ bytes.length ∧ taken s' = taken s ++ bytes.take k ∧ room s' (n - k)
  fails : ∀ s bytes, room s 0 → bytes ≠ [] → ∃ s' answer, sink.write s bytes = (s', answer) ∧
    answer.Fails ∧ taken s' = taken s

theorem writeAll_of_took {n : Nat} (hbytes : bytes ≠ []) (hn : n ≠ 0)
    (h : sink.write s bytes = (s', .took n)) :
    sink.writeAll s bytes = sink.writeAll s' (bytes.drop n) := by
  obtain ⟨b, bs, rfl⟩ := List.exists_cons_of_ne_nil hbytes
  obtain ⟨n, rfl⟩ := Nat.exists_eq_succ_of_ne_zero hn
  rw [writeAll, h]
  rfl

theorem writeAll_of_fails {answer : Answer} (hbytes : bytes ≠ []) (hanswer : answer.Fails)
    (h : sink.write s bytes = (s', answer)) :
    ∃ detail, sink.writeAll s bytes = (s', .error (.transfer detail)) := by
  obtain ⟨b, bs, rfl⟩ := List.exists_cons_of_ne_nil hbytes
  rw [writeAll, h]
  cases answer with
  | failure detail => exact ⟨detail, rfl⟩
  | took n =>
    cases (hanswer : n = 0)
    exact ⟨_, rfl⟩

/-- The first bytes are taken, up to the last one for which there is room. It is a failure if others
are left over. -/
theorem Limited.writeAll_spec (h : sink.Limited taken room) (s : σ) (n : Nat) (bytes : List UInt8)
    (hn : room s n) :
    ((sink.writeAll s bytes).2 = .ok () ↔ bytes.length ≤ n) ∧
      ((sink.writeAll s bytes).2 ≠ .ok () →
        ∃ detail, (sink.writeAll s bytes).2 = .error (.transfer detail)) ∧
      taken (sink.writeAll s bytes).1 = taken s ++ bytes.take n := by
  by_cases hbytes : bytes = []
  · subst hbytes
    simp [writeAll]
  by_cases hfull : n = 0
  · subst hfull
    obtain ⟨s', answer, hwrite, hanswer, htaken⟩ := h.fails s bytes hn hbytes
    obtain ⟨detail, hresult⟩ := writeAll_of_fails hbytes hanswer hwrite
    rw [hresult]
    exact ⟨by simpa using hbytes, fun _ => ⟨detail, rfl⟩, by simpa using htaken⟩
  · obtain ⟨s', k, hwrite, hk, hkn, hle, htaken, hroom⟩ := h.takes s n bytes hn hfull hbytes
    -- What is left over is shorter, and so is the room for it.
    have hshort : (bytes.drop k).length < bytes.length := by
      rw [List.length_drop]
      omega
    obtain ⟨hok, herror, hrest⟩ := h.writeAll_spec s' (n - k) (bytes.drop k) hroom
    have hfits : (bytes.drop k).length ≤ n - k ↔ bytes.length ≤ n := by
      rw [List.length_drop]
      omega
    have htake : bytes.take k ++ (bytes.drop k).take (n - k) = bytes.take n := by
      rw [← List.take_add, Nat.add_sub_cancel' hkn]
    rw [writeAll_of_took hbytes hk hwrite]
    refine ⟨hok.trans hfits, herror, ?_⟩
    rw [hrest, htaken, List.append_assoc, htake]
termination_by bytes.length
decreasing_by exact hshort

theorem exists_takeUpTo {chunk : Option Nat} {n : Nat} (hchunk : chunk ≠ some 0) (hn : n ≠ 0)
    (hbytes : bytes ≠ []) :
    ∃ k, takeUpTo (some n) (takeUpTo chunk bytes) = bytes.take k ∧ k ≠ 0 ∧ k ≤ n ∧
      k ≤ bytes.length := by
  have hpos : 0 < bytes.length := List.length_pos_iff.mpr hbytes
  cases chunk with
  | none =>
    refine ⟨min n bytes.length, ?_, by omega, by omega, by omega⟩
    simp [takeUpTo]
  | some c =>
    have hc : c ≠ 0 := fun hc => hchunk (congrArg some hc)
    refine ⟨min (min n c) bytes.length, ?_, by omega, by omega, by omega⟩
    simp [takeUpTo, List.take_take]

/-- A sink with bounds fails after the number of bytes for which it had room, whatever the bound for
one write is. -/
theorem limited_bounded {chunk : Option Nat} {full : Answer} (hchunk : chunk ≠ some 0)
    (hfull : full.Fails) :
    (bounded chunk full).Limited Store.bytes fun store n => store.room = some n where
  takes store n bytes hn hroom hbytes := by
    obtain ⟨k, htake, hk, hkn, hle⟩ := exists_takeUpTo hchunk hroom hbytes
    have hlength : (bytes.take k).length = k := List.length_take_of_le hle
    refine ⟨{ taken := (bytes.take k).reverse ++ store.taken, room := some (n - k) }, k, ?_, hk,
      hkn, hle, ?_, rfl⟩
    · simp [bounded, hn, hroom, htake, hlength]
    · simp [Store.bytes]
  fails store bytes hn _ := ⟨store, full, by simp [bounded, hn], hfull, rfl⟩

end Sink

end Dockerfile
