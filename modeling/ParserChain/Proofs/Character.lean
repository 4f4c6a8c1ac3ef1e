import Mathlib.Tactic.Lemma
import ParserChain.Capture.Decode
import ParserChain.Proofs.Malformed

/-! Captures of one character. To search for the shortest prefix that is text as a whole comes to
reading the one character that the input begins with, whatever else the shape says. -/
namespace ParserChain
namespace Utf8

/-- The first character of the bytes, if as a whole they are text. -/
def firstOfText? (unit : List UInt8) : Option Char :=
  (String.fromUTF8? unit.toByteArray).bind (·.toList.head?)

/-- The first character of the shortest prefix that is text, with the length of the prefix. No more
than four bytes are tried. -/
def shortestText? (input : List UInt8) : Option (Char × Nat) :=
  (List.range' 1 (min 4 input.length)).findSome? fun n =>
    (firstOfText? (input.take n)).map (·, n)

lemma fromUTF8?_eq_some {unit : List UInt8} {text : String} :
    String.fromUTF8? unit.toByteArray = some text ↔ unit = bytes text := by
  rw [← List.toByteArray_inj, toByteArray_bytes]
  unfold String.fromUTF8?
  constructor
  · intro h
    split at h
    · exact congrArg String.toByteArray (Option.some.inj h)
    · cases h
  · intro h
    have hvalid : unit.toByteArray.IsValidUTF8 := h ▸ text.isValidUTF8
    rw [dif_pos hvalid]
    exact congrArg some (String.toByteArray_inj.mp h)

lemma begins_of_firstOfText? {unit : List UInt8} {c : Char} (h : firstOfText? unit = some c) :
    encode c <+: unit := by
  obtain ⟨text, htext, hhead⟩ := Option.bind_eq_some_iff.mp h
  obtain ⟨cs, hcs⟩ := List.head?_eq_some_iff.mp hhead
  rw [fromUTF8?_eq_some.mp htext, bytes, hcs, List.flatMap_cons]
  exact List.prefix_append _ _

lemma firstOfText?_encode (c : Char) : firstOfText? (encode c) = some c := by
  have htext : String.fromUTF8? (encode c).toByteArray = some (String.ofList [c]) :=
    fromUTF8?_eq_some.mpr (by simp [bytes])
  simp [firstOfText?, htext]

lemma read?_eq_some_iff_begins {input : List UInt8} {c : Char} :
    read? input = some c ↔ encode c <+: input := by
  rw [read?_eq_some]
  exact exists_congr fun rest => eq_comm

/-- The shortest prefix that is text is the one character that the input begins with. -/
theorem shortestText?_eq (input : List UInt8) :
    shortestText? input = (read? input).map fun c => (c, c.utf8Size) := by
  -- Text that is a prefix of any length begins with the character that is read.
  have hread {n : Nat} {c : Char} (h : firstOfText? (input.take n) = some c) :
      read? input = some c ∧ c.utf8Size ≤ n := by
    have hbegins := begins_of_firstOfText? h
    refine ⟨read?_eq_some_iff_begins.mpr (hbegins.trans (List.take_prefix n input)), ?_⟩
    have hlen := hbegins.length_le
    rw [length_encode, List.length_take] at hlen
    omega
  cases hinput : read? input with
  | none =>
    refine List.findSome?_eq_none_iff.mpr fun n _ => ?_
    cases hn : firstOfText? (input.take n) with
    | none => rfl
    | some c => simp [(hread hn).1] at hinput
  | some c =>
    obtain ⟨rest, rfl⟩ := read?_eq_some.mp hinput
    have hpos := c.utf8Size_pos
    have hle := c.utf8Size_le_four
    have htake : (encode c ++ rest).take c.utf8Size = encode c := List.take_left' (length_encode c)
    refine List.findSome?_eq_some_iff.mpr ⟨List.range' 1 (c.utf8Size - 1), c.utf8Size,
      List.range' (c.utf8Size + 1) (min 4 (encode c ++ rest).length - c.utf8Size), ?_, ?_, ?_⟩
    · have hfits : c.utf8Size ≤ min 4 (encode c ++ rest).length := by
        simp only [List.length_append, length_encode]
        omega
      rw [List.range'_eq_append_iff]
      refine ⟨c.utf8Size - 1, by omega, rfl, ?_⟩
      rw [← List.range'_succ]
      congr 1 <;> omega
    · rw [htake, firstOfText?_encode]
      rfl
    · intro n hn
      cases hshort : firstOfText? ((encode c ++ rest).take n) with
      | none => rfl
      | some d =>
        obtain ⟨hd, hsize⟩ := hread hshort
        obtain rfl : c = d := by simpa using hd
        have hlt := List.mem_range'_1.mp hn
        omega

end Utf8

namespace Shape

/-- A character is captured exactly where the bytes of one stand in front. It is the only one there,
and it is found by trying longer and longer prefixes. Anything else is malformed and refused. -/
theorem decode_character {s : Shape} (hutf8 : s.utf8 = true) :
    (∀ input v n, s.decode input = .ok (some (v, n)) ↔
      ∃ c : Char, v = c.toNat ∧ n = (Utf8.encode c).length ∧ Utf8.encode c <+: input) ∧
    (∀ input, s.decode input = .ok none ↔ Utf8.Malformed input) ∧
    (∀ input, s.decode input =
      .ok ((Utf8.shortestText? input).map fun (c, n) => ((c.toNat : Int), n))) ∧
    (∀ c rest, s.decode (Utf8.encode c ++ rest) =
      .ok (some (c.toNat, (Utf8.encode c).length))) ∧
    ∀ (input : List UInt8) (c d : Char), Utf8.encode c <+: input → Utf8.encode d <+: input →
      c = d := by
  have hread (input : List UInt8) : s.decode input =
      .ok ((Utf8.read? input).map fun c => ((c.toNat : Int), c.utf8Size)) := if_pos hutf8
  refine ⟨fun input v n => ?_, fun input => ?_, fun input => ?_, fun c rest => ?_, ?_⟩
  · rw [hread, Except.ok.injEq, Option.map_eq_some_iff]
    refine exists_congr fun c => ?_
    rw [Utf8.read?_eq_some_iff_begins, Utf8.length_encode, Prod.mk.injEq]
    constructor
    · rintro ⟨hc, rfl, rfl⟩
      exact ⟨rfl, rfl, hc⟩
    · rintro ⟨rfl, rfl, hc⟩
      exact ⟨hc, rfl, rfl⟩
  · rw [hread, Except.ok.injEq, Option.map_eq_none_iff, Utf8.malformed_iff,
      Option.eq_none_iff_forall_ne_some]
    exact forall_congr' fun c => not_congr Utf8.read?_eq_some_iff_begins
  · rw [hread, Utf8.shortestText?_eq, Option.map_map]
    rfl
  · rw [hread, Utf8.read?_encode_append, Utf8.length_encode]
    rfl
  · intro input c d hc hd
    have hsome := Utf8.read?_eq_some_iff_begins.mpr hc
    exact Option.some.inj (hsome.symm.trans (Utf8.read?_eq_some_iff_begins.mpr hd))

/-- An accented letter is read and leaves what follows; a surrogate and a null byte written at
length are refused. The other fields of the shape do not count. -/
theorem decode_character_accented :
    (Shape.mk 16 true true true).utf8 = true ∧
    (Shape.mk 16 true true true).decode [0xC3, 0xA9, 0x41] = .ok (some (0xE9, 2)) ∧
    (Shape.mk 16 true true true).decode [0xED, 0xA0, 0x80] = .ok none ∧
    (Shape.mk 16 true true true).decode [0xC0, 0x80, 0x41] = .ok none := by
  obtain ⟨-, hnone, -, hread, -⟩ := decode_character (s := Shape.mk 16 true true true) rfl
  refine ⟨rfl, hread 'é' [0x41], (hnone _).mpr ?_, (hnone _).mpr ?_⟩
  · exact .surrogate (v := 0xD800) (by decide) (by decide) []
  · exact .overlong (n := 1) (v := 0) (by decide) (by decide) [0x41]

end Shape
end ParserChain
