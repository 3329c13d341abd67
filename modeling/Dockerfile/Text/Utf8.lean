import Dockerfile.Text.Basic

/-!
# UTF-8

* `Text.toBytes`, `Text.ofBytes?`: encoding and strict decoding.
* `Text.ofBytes?_toBytes`: decoding an encoded text gives the text back.
-/

namespace Dockerfile.Text

/-- The UTF-8 encoding of a text. -/
def toBytes (t : Text) : List UInt8 := (String.ofList t).toUTF8.data.toList

/-- The text that the bytes encode, if they are valid UTF-8. -/
def ofBytes? (bytes : List UInt8) : Option Text :=
  (String.fromUTF8? ⟨bytes.toArray⟩).map String.toList

/-- The number of bytes of the UTF-8 encoding. -/
def byteSize (t : Text) : Nat := (toBytes t).length

/-- Decoding undoes encoding. -/
theorem ofBytes?_toBytes (t : Text) : ofBytes? (toBytes t) = some t := by
  have h : (⟨(toBytes t).toArray⟩ : ByteArray) = (String.ofList t).toByteArray := by
    simp [toBytes]
  simp only [ofBytes?, h, String.fromUTF8?, dif_pos (String.ofList t).isValidUTF8]
  exact congrArg some String.toList_ofList

end Dockerfile.Text
