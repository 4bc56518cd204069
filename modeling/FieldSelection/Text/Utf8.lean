/-!
# Text as bytes

Documents are read and written as bytes in UTF-8. Every text has one such form, and
`ofBytes?` finds the text again. Of bytes that are no text, `dropText` tells where the
first character is broken.
-/

namespace FieldSelection.Text

/-- The bytes of a text. -/
def bytes (text : String) : List UInt8 :=
  text.toList.flatMap String.utf8EncodeChar

/-- The text that these bytes are. -/
def ofBytes? (bytes : List UInt8) : Option String :=
  String.fromUTF8? bytes.toByteArray

/-- Whether a byte is one of those that follow the first of a character. -/
def isTail (b : UInt8) : Bool := 0x80 ≤ b && b ≤ 0xBF

/-- Whether two bytes make a character, or can start one of three or four bytes. -/
def isStart (a b : UInt8) : Bool :=
  if a ≤ 0xDF then 0xC2 ≤ a && isTail b
  else if a == 0xE0 then 0xA0 ≤ b && b ≤ 0xBF
  else if a == 0xED then 0x80 ≤ b && b ≤ 0x9F
  else if a ≤ 0xEF then isTail b
  else if a == 0xF0 then 0x90 ≤ b && b ≤ 0xBF
  else if a == 0xF4 then 0x80 ≤ b && b ≤ 0x8F
  else a ≤ 0xF3 && isTail b

/-- The bytes from the first character on that is not well formed. -/
def dropText : List UInt8 → List UInt8
  | [] => []
  | a :: rest =>
    if a ≤ 0x7F then dropText rest
    else
      match rest with
      | [] => [a]
      | b :: rest =>
        if !isStart a b then a :: b :: rest
        else if a ≤ 0xDF then dropText rest
        else
          match rest with
          | [] => [a, b]
          | c :: rest =>
            if !isTail c then a :: b :: c :: rest
            else if a ≤ 0xEF then dropText rest
            else
              match rest with
              | [] => [a, b, c]
              | d :: rest =>
                if isTail d then dropText rest else a :: b :: c :: d :: rest

theorem toByteArray_bytes (text : String) : (bytes text).toByteArray = text.toByteArray := by
  have h := String.toByteArray_ofList (l := text.toList)
  rw [String.ofList_toList] at h
  rw [h]
  rfl

theorem ofBytes?_bytes (text : String) : ofBytes? (bytes text) = some text := by
  simp only [ofBytes?, toByteArray_bytes, String.fromUTF8?, dif_pos text.isValidUTF8]
  rfl

theorem bytes_append (a b : String) : bytes (a ++ b) = bytes a ++ bytes b := by
  simp [bytes]

end FieldSelection.Text
