/-!
# Texts as bytes

The UTF-8 form of a text, and what can be shown of it when it has been cut off at some byte.
-/

namespace Lox.Bytes

/-- The UTF-8 form of a text. -/
def ofText (s : String) : List UInt8 := s.toByteArray.data.toList

/-- The text with the given UTF-8 form. -/
def text? (bytes : List UInt8) : Option String := String.fromUTF8? ⟨bytes.toArray⟩

/-- What stands for a character that was cut off. -/
def cutMark : String := "\uFFFD"

/--
The text of a beginning of a UTF-8 form. A character has at most four bytes, so at most three of
them are left over when the last one is cut off.
-/
def shown (bytes : List UInt8) : String :=
  match text? bytes with
  | some s => s
  | none =>
    (([1, 2, 3].findSome? fun k => text? (bytes.take (bytes.length - k))).getD "") ++ cutMark

theorem ofText_append (s t : String) : ofText (s ++ t) = ofText s ++ ofText t := by
  simp [ofText]

end Lox.Bytes
