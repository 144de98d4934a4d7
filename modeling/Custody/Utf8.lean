/-!
# Text in memory

* `Utf8`: a text as it lies in memory. Its bytes can be written one by one, so they need not
  always encode characters.
* `Utf8.ofString`, `Utf8.toString`: the encoding of a string, and the string that is encoded.
* `Utf8.isBoundary`: a position that no character straddles.
-/

namespace Custody

/-- Text as its bytes, which may come to be no characters. -/
structure Utf8 where
  bytes : List UInt8
  deriving DecidableEq, Repr, Inhabited

namespace Utf8

/-- The bytes of a text. -/
def ofString (s : String) : Utf8 := ⟨s.toUTF8.data.toList⟩

/-- The text of no bytes. -/
def empty : Utf8 := ⟨[]⟩

/-- Bytes that encode no characters are shown as nothing. -/
def toString (t : Utf8) : String := (String.fromUTF8? ⟨t.bytes.toArray⟩).getD ""

theorem toString_ofString (s : String) : (ofString s).toString = s := by
  have h : ByteArray.mk (ofString s).bytes.toArray = s.toUTF8 := by simp [ofString]
  rw [toString, h, String.fromUTF8?, String.toUTF8_eq_toByteArray, dif_pos s.isValidUTF8]
  rfl

/-- The number of bytes. -/
def size (t : Utf8) : Nat := t.bytes.length

/-- The byte there, if there is one, begins a character. -/
def isBoundary (t : Utf8) (i : Nat) : Bool :=
  match t.bytes[i]? with
  | some b => b < 0x80 || 0xc0 ≤ b
  | none => i == t.size

/-- ASCII letters in upper case, and every other byte as it is. -/
def toUpperAscii (t : Utf8) : Utf8 :=
  ⟨t.bytes.map fun b => if 'a'.toUInt8 ≤ b ∧ b ≤ 'z'.toUInt8 then b - 32 else b⟩

end Utf8

end Custody
