import ConfigEdit.Text.Basic

/-!
# Texts as bytes

Files hold bytes.  A text is stored in UTF-8, and bytes that are not UTF-8
hold no text.
-/

namespace ConfigEdit.Text

/-- The bytes of a text. -/
def utf8 (text : Text) : ByteArray := (String.ofList text).toByteArray

/-- The text that bytes hold. -/
def ofUtf8? (bytes : ByteArray) : Option Text :=
  bytes.utf8Decode?.map Array.toList

@[simp] theorem ofUtf8?_utf8 (text : Text) : ofUtf8? text.utf8 = some text := by
  simp [ofUtf8?, utf8]

@[simp] theorem utf8_inj {left right : Text} :
    left.utf8 = right.utf8 ↔ left = right := by
  constructor
  · intro same
    simpa using congrArg ofUtf8? same
  · rintro rfl
    rfl

/-- Bytes that hold a text are the bytes of the text. -/
theorem utf8_of_ofUtf8?
    {bytes : ByteArray} {text : Text} (held : ofUtf8? bytes = some text) :
    text.utf8 = bytes := by
  obtain ⟨characters, decoded, rfl⟩ := Option.map_eq_some_iff.1 held
  have valid : bytes.utf8Decode?.isSome := by simp [decoded]
  have encoded := ByteArray.utf8Encode_get_utf8Decode? (b := bytes) (h := valid)
  simp only [decoded, Option.get_some] at encoded
  rw [utf8, String.toByteArray_ofList, encoded]

end ConfigEdit.Text
