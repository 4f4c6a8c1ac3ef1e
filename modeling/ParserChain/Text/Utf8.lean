/-! Text as UTF-8 bytes, and the one character that a run of bytes begins with. A character is read
exactly where its own bytes stand, so overlong forms, surrogates and stray bytes are refused. -/
namespace ParserChain.Utf8

def encode (c : Char) : List UInt8 := String.utf8EncodeChar c

/-- The bytes of a text, character by character. -/
def bytes (text : String) : List UInt8 := text.toList.flatMap encode

/-- The character at the front of the bytes; no character takes more than four. -/
def read? (input : List UInt8) : Option Char :=
  ByteArray.utf8DecodeChar? (input.take 4).toByteArray 0

@[simp] theorem length_encode (c : Char) : (encode c).length = c.utf8Size :=
  String.length_utf8EncodeChar c

@[simp] theorem bytes_empty : bytes "" = [] := rfl

@[simp] theorem bytes_append (s t : String) : bytes (s ++ t) = bytes s ++ bytes t := by
  simp [bytes]

theorem toByteArray_bytes (s : String) : (bytes s).toByteArray = s.toByteArray := by
  rw [← String.utf8Encode_toList, List.utf8Encode]
  rfl

@[simp] theorem length_bytes (s : String) : (bytes s).length = s.utf8ByteSize := by
  rw [← String.size_toByteArray, ← toByteArray_bytes, List.size_toByteArray]

theorem bytes_inj {s t : String} : bytes s = bytes t ↔ s = t := by
  refine ⟨fun h => String.toByteArray_inj.1 ?_, fun h => h ▸ rfl⟩
  rw [← toByteArray_bytes, ← toByteArray_bytes, h]

@[simp] theorem read?_encode_append (c : Char) (rest : List UInt8) :
    read? (encode c ++ rest) = some c := by
  have hc := c.utf8Size_le_four
  rw [read?, List.take_append, length_encode, List.take_of_length_le (by simpa using hc),
    List.toByteArray_append]
  exact ByteArray.utf8DecodeChar?_utf8EncodeChar_append

theorem read?_eq_some {input : List UInt8} {c : Char} :
    read? input = some c ↔ ∃ rest, input = encode c ++ rest := by
  constructor
  · intro h
    obtain ⟨l, hl⟩ := ByteArray.exists_of_utf8DecodeChar?_eq_some h
    have ht : input.take 4 = encode c ++ l.data.toList := by
      have hd := congrArg (fun b => b.data.toList) hl
      simpa [encode] using hd
    refine ⟨l.data.toList ++ input.drop 4, ?_⟩
    rw [← List.append_assoc, ← ht, List.take_append_drop]
  · rintro ⟨rest, rfl⟩
    exact read?_encode_append c rest

end ParserChain.Utf8
