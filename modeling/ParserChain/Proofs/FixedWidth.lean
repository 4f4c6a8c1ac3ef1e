import Mathlib.Data.Int.ModEq
import Mathlib.Data.Nat.Digits.Lemmas
import ParserChain.Proofs.Match

/-! Units of fixed width. A word of 64 bits takes in the bytes of a unit by shifts, and a pair of
shifts spreads the sign. What comes out is the number that the bytes write in base 256, as a two's
complement of the unit's width where it is signed. -/
namespace ParserChain

/-- A word that takes in bytes at its low end. What is shifted past the high end is lost. -/
def shiftIn (input : List UInt8) : BitVec 64 :=
  input.foldl (fun word b => word <<< 8 ||| b.toBitVec.setWidth 64) 0

lemma shiftIn_append_singleton (input : List UInt8) (b : UInt8) :
    shiftIn (input ++ [b]) = shiftIn input <<< 8 ||| b.toBitVec.setWidth 64 := by
  simp [shiftIn]

/-- A byte fills the low end that a shift has left empty. -/
lemma toNat_shiftIn_byte (word : BitVec 64) (b : UInt8) :
    (word <<< 8 ||| b.toBitVec.setWidth 64).toNat =
      (256 * word.toNat + b.toNat) % 18446744073709551616 := by
  have hb : b.toNat < 2 ^ 8 := b.toNat_lt
  have hshift : word.toNat <<< 8 % 2 ^ 64 = 2 ^ 8 * (word.toNat % 2 ^ 56) := by
    rw [Nat.shiftLeft_eq]
    omega
  have hbyte : b.toNat % 2 ^ 64 = b.toNat := Nat.mod_eq_of_lt (by omega)
  rw [BitVec.toNat_or, BitVec.toNat_shiftLeft, hshift, BitVec.toNat_setWidth,
    UInt8.toNat_toBitVec, hbyte, ← Nat.two_pow_add_eq_or_of_lt hb]
  omega

/-- The word is the number of the bytes, as far as 64 bits hold it. -/
lemma toNat_shiftIn (input : List UInt8) :
    (shiftIn input).toNat = bigEndian input % 18446744073709551616 := by
  induction input using List.reverseRecOn with
  | nil => rfl
  | append_singleton input b ih =>
    rw [shiftIn_append_singleton, toNat_shiftIn_byte, ih, bigEndian_append_singleton]
    omega

/-- To shift a word up and back down with its sign leaves its low bits, the highest of them as the
sign. -/
lemma toInt_shift_pair (word : BitVec 64) {k : Nat} (hk : k < 64) :
    ((word <<< k).sshiftRight k).toInt = Int.bmod word.toNat (2 ^ (64 - k)) := by
  have hpow : 2 ^ 64 = 2 ^ k * 2 ^ (64 - k) := by
    rw [← pow_add]
    congr 1
    omega
  have heven : 2 ∣ 2 ^ (64 - k) := dvd_pow_self 2 (by omega)
  have hpos : ((2 ^ k : Nat) : Int) ≠ 0 := by positivity
  rw [BitVec.toInt_sshiftRight, BitVec.toInt_shiftLeft, Nat.shiftLeft_eq, hpow, Nat.mul_comm,
    Int.natCast_mul, Int.mod_bmod_mul_of_pos _ _ (Nat.two_pow_pos k) heven,
    Int.shiftRight_eq_div_pow, Int.mul_ediv_cancel_left _ hpos]

lemma bmod_shiftIn (input : List UInt8) {n : Nat} (hn : n ≤ 64) :
    Int.bmod (shiftIn input).toNat (2 ^ n) = Int.bmod (bigEndian input) (2 ^ n) := by
  have hdvd : ((2 ^ n : Nat) : Int) ∣ 18446744073709551616 := by
    exact_mod_cast pow_dvd_pow 2 hn
  rw [toNat_shiftIn, ← Int.emod_bmod, Int.natCast_emod, Int.cast_ofNat_Int,
    Int.emod_emod_of_dvd _ hdvd, Int.emod_bmod]

namespace Shape

/-- The value of a unit whose bytes are shifted into a word. The word of a signed unit is shifted
up until the sign stands at the high end, and back down with it. -/
def shiftedValue (s : Shape) (unit : List UInt8) : Except Fault Int :=
  let word := shiftIn (if s.little then unit.reverse else unit)
  if s.signed then
    if 64 < s.bits then .error .widthAbove64
    else if s.bits = 0 then .error .widthZero
    else .ok ((word <<< (64 - s.bits)).sshiftRight (64 - s.bits)).toInt
  else .ok word.toInt

/-- Shifting gives the value of a unit, for every shape. -/
theorem shiftedValue_eq (s : Shape) (unit : List UInt8) :
    s.shiftedValue unit = s.fixedValue unit := by
  unfold shiftedValue fixedValue number
  cases s.signed with
  | false =>
    simp only [Bool.false_eq_true, if_false, Bool.not_false, if_true, Nat.one_shiftLeft]
    rw [BitVec.toInt_eq_toNat_bmod, bmod_shiftIn _ (Nat.le_refl 64)]
  | true =>
    simp only [if_true, Bool.not_true, Bool.false_eq_true, if_false]
    split
    · rfl
    · split
      · rfl
      · rename_i hle hpos
        have hbits : 64 - (64 - s.bits) = s.bits := by omega
        rw [toInt_shift_pair _ (by omega), hbits, bmod_shiftIn _ (by omega), Nat.one_shiftLeft]

end Shape

lemma bigEndian_eq_ofDigits (input : List UInt8) :
    bigEndian input = Nat.ofDigits 256 (input.reverse.map UInt8.toNat) := by
  induction input using List.reverseRecOn with
  | nil => rfl
  | append_singleton input b ih =>
    rw [bigEndian_append_singleton, ih, List.reverse_append, List.reverse_singleton,
      List.singleton_append, List.map_cons, Nat.ofDigits_cons, Nat.add_comm]

lemma digits_lt (input : List UInt8) : ∀ d ∈ input.map UInt8.toNat, d < 256 := by
  intro d hd
  obtain ⟨b, -, rfl⟩ := List.mem_map.mp hd
  exact b.toNat_lt

lemma bigEndian_lt (input : List UInt8) : bigEndian input < 2 ^ (8 * input.length) := by
  have h := Nat.ofDigits_lt_base_pow_length (by decide : 1 < 256) (digits_lt input.reverse)
  rw [List.length_map, List.length_reverse] at h
  rw [bigEndian_eq_ofDigits, pow_mul]
  exact h

/-- As many bytes that write the same number are the same bytes. -/
lemma bigEndian_inj {input other : List UInt8} (hlen : input.length = other.length)
    (h : bigEndian input = bigEndian other) : input = other := by
  rw [bigEndian_eq_ofDigits, bigEndian_eq_ofDigits] at h
  have hdigits := Nat.ofDigits_inj_of_len_eq (by decide : 1 < 256) (by simpa using hlen)
    (digits_lt input.reverse) (digits_lt other.reverse) h
  have hbytes := List.map_injective_iff.mpr (fun _ _ => UInt8.toNat_inj.mp) hdigits
  exact List.reverse_injective hbytes

/-- The balanced residue is the one two's complement of that many bits. -/
lemma eq_bmod_iff {n x : Int} {k : Nat} (hk : 0 < k) :
    n = Int.bmod x (2 ^ k) ↔ -2 ^ (k - 1) ≤ n ∧ n < 2 ^ (k - 1) ∧ n ≡ x [ZMOD 2 ^ k] := by
  obtain ⟨j, rfl⟩ := Nat.exists_eq_succ_of_ne_zero (Nat.ne_of_gt hk)
  have hpow : ((2 ^ (j + 1) : Nat) : Int) = 2 * 2 ^ j := by
    push_cast
    ring
  rw [eq_comm, Int.bmod_eq_iff (Nat.two_pow_pos _), Int.modEq_comm, Int.modEq_iff_dvd,
    Nat.succ_eq_add_one, Nat.add_sub_cancel, hpow, pow_succ']
  have hlow : -(2 * 2 ^ j / 2) = (-2 ^ j : Int) := by omega
  have hhigh : (2 * 2 ^ j + 1) / 2 = (2 ^ j : Int) := by omega
  rw [hlow, hhigh]

/-- Numbers below the modulus are told apart by their balanced residues. -/
lemma eq_of_bmod_eq {m n k : Nat} (hm : m < k) (hn : n < k) (h : Int.bmod m k = Int.bmod n k) :
    m = n := by
  have hmod := congrArg (· % (k : Int)) h
  simp only [Int.bmod_emod] at hmod
  rw [Int.emod_eq_of_lt (by omega) (by omega), Int.emod_eq_of_lt (by omega) (by omega)] at hmod
  exact Int.ofNat.inj hmod

namespace Shape

lemma length_number (s : Shape) (unit : List UInt8) :
    (if s.little then unit.reverse else unit).length = unit.length := by
  split <;> simp

lemma number_lt (s : Shape) (unit : List UInt8) : s.number unit < 2 ^ (8 * unit.length) := by
  have h := bigEndian_lt (if s.little then unit.reverse else unit)
  rwa [length_number] at h

lemma number_inj {s : Shape} {unit other : List UInt8} (hlen : unit.length = other.length)
    (h : s.number unit = s.number other) : unit = other := by
  have hbytes := bigEndian_inj (by simpa only [length_number] using hlen) h
  cases hlittle : s.little with
  | false => simpa [hlittle] using hbytes
  | true => simpa [hlittle] using hbytes

/-- The first byte counts most, or the last one in little order. -/
lemma number_eq_ofDigits (s : Shape) (unit : List UInt8) : s.number unit =
    Nat.ofDigits 256 ((if s.little then unit else unit.reverse).map UInt8.toNat) := by
  rw [number, bigEndian_eq_ofDigits]
  cases s.little <;> simp

/-- What holds of a plain byte and is kept by every modifier holds of the shape of modifiers. -/
lemma ofModifiers_induction {motive : Shape → Prop} (modifiers : List Modifier)
    (plain : motive {}) (step : ∀ s, motive s → ∀ m ∈ modifiers, motive (s.refine m)) :
    motive (ofModifiers modifiers) :=
  List.foldlRecOn modifiers refine plain step

/-- Modifiers give a shape of one to eight whole bytes. -/
lemma bits_ofModifiers_eq (modifiers : List Modifier) :
    (ofModifiers modifiers).bits = 8 * (ofModifiers modifiers).width := by
  refine ofModifiers_induction (motive := fun s => s.bits = 8 * s.width) modifiers rfl ?_
  intro s hs m _
  cases m with
  | size bits =>
    simp only [refine, width]
    omega
  | signed => exact hs
  | unsigned => exact hs
  | little => exact hs
  | big => exact hs
  | utf8 => exact hs

lemma utf8_ofModifiers {modifiers : List Modifier} (h : .utf8 ∉ modifiers) :
    (ofModifiers modifiers).utf8 = false := by
  refine ofModifiers_induction (motive := fun s => s.utf8 = false) modifiers rfl ?_
  intro s hs m hm
  cases m with
  | utf8 => exact absurd hm h
  | size bits => exact hs
  | signed => exact hs
  | unsigned => exact hs
  | little => exact hs
  | big => exact hs

/-- The value of a unit of whole bytes. -/
lemma fixedValue_ofModifiers (modifiers : List Modifier) (unit : List UInt8) :
    (ofModifiers modifiers).fixedValue unit = .ok (Int.bmod ((ofModifiers modifiers).number unit)
      (2 ^ if (ofModifiers modifiers).signed then 8 * (ofModifiers modifiers).width else 64)) := by
  obtain ⟨hpos, hle⟩ := bits_ofModifiers modifiers
  have hwide : ¬ 64 < (ofModifiers modifiers).bits := by omega
  have hzero : ¬ (ofModifiers modifiers).bits = 0 := by omega
  rw [← bits_ofModifiers_eq]
  unfold fixedValue
  cases (ofModifiers modifiers).signed with
  | false => simp [Nat.one_shiftLeft]
  | true => simp [hwide, hzero, Nat.one_shiftLeft]

variable {s : Shape}

lemma decode_eq_none (hutf8 : s.utf8 = false) (input : List UInt8) :
    s.decode input = .ok none ↔ input.length < s.width := by
  rw [decode, if_neg (by simp [hutf8])]
  split
  · rename_i h
    simp [h]
  · rename_i h
    cases s.fixedValue (input.take s.width) <;> simp [Except.map, h]

/-- A unit is decoded by its own bytes. -/
lemma decode_append (hutf8 : s.utf8 = false) {unit : List UInt8} (hunit : unit.length = s.width)
    (rest : List UInt8) : s.decode (unit ++ rest) =
      (s.fixedValue unit).map fun value => some (value, s.width) := by
  have hlen : ¬ (unit ++ rest).length < s.width := by
    rw [List.length_append]
    omega
  rw [decode, if_neg (by simp [hutf8]), if_neg hlen, ← hunit, List.take_left]

lemma fixedValue_little (s : Shape) (unit : List UInt8) :
    (s.refine .little).fixedValue unit = (s.refine .big).fixedValue unit.reverse := by
  simp [refine, fixedValue, number]

/-- A unit in little order is the reversed unit in big order. -/
lemma decode_little (hutf8 : s.utf8 = false) {unit : List UInt8} (hunit : unit.length = s.width)
    (rest : List UInt8) : (s.refine .little).decode (unit ++ rest) =
      (s.refine .big).decode (unit.reverse ++ rest) := by
  have hreverse : unit.reverse.length = (s.refine .big).width := by
    rw [List.length_reverse]
    exact hunit
  have hlittle := decode_append (s := s.refine .little) hutf8 hunit rest
  have hbig := decode_append (s := s.refine .big) hutf8 hreverse rest
  rw [hlittle, hbig, fixedValue_little]
  rfl

/-- Modifiers that do not ask for a character never make decoding fault. A unit that is there is
decoded by shifts, and its value is the two's complement of its number, or the number itself where
it has no sign and fewer than 64 bits. Units that differ have values that differ, and little order
is big order with the bytes reversed. -/
theorem decode_fixed_width (modifiers : List Modifier) (hfixed : .utf8 ∉ modifiers) (s : Shape)
    (hs : s = ofModifiers modifiers) :
    (∀ input, s.decode input = .ok none ↔ input.length < s.width) ∧
    (∀ (unit rest : List UInt8) (N : Nat), unit.length = s.width →
      N = Nat.ofDigits 256 ((if s.little then unit else unit.reverse).map UInt8.toNat) →
      ∃ v, s.shiftedValue unit = .ok v ∧ s.decode (unit ++ rest) = .ok (some (v, s.width)) ∧
        (s.signed = true ∨ s.width = 8 → ∀ n, n = v ↔ -2 ^ (8 * s.width - 1) ≤ n ∧
          n < 2 ^ (8 * s.width - 1) ∧ n ≡ N [ZMOD 2 ^ (8 * s.width)]) ∧
        (¬ (s.signed = true ∨ s.width = 8) → v = N)) ∧
    (∀ (unit other rest behind : List UInt8) (v : Int) (m n : Nat), unit.length = s.width →
      other.length = s.width → s.decode (unit ++ rest) = .ok (some (v, m)) →
      s.decode (other ++ behind) = .ok (some (v, n)) → unit = other) ∧
    ∀ unit rest : List UInt8, unit.length = s.width →
      (ofModifiers (modifiers ++ [.little])).decode (unit ++ rest) =
        (ofModifiers (modifiers ++ [.big])).decode (unit.reverse ++ rest) := by
  subst hs
  have hutf8 := utf8_ofModifiers hfixed
  have hbits := bits_ofModifiers_eq modifiers
  obtain ⟨hpos, hle⟩ := bits_ofModifiers modifiers
  have hvalue := fixedValue_ofModifiers modifiers
  refine ⟨decode_eq_none hutf8, ?_, ?_, ?_⟩
  · rintro unit rest N hunit rfl
    rw [← number_eq_ofDigits]
    refine ⟨_, (shiftedValue_eq _ unit).trans (hvalue unit), ?_, ?_, ?_⟩
    · rw [decode_append hutf8 hunit, hvalue]
      rfl
    · intro hword n
      have hspan : (if (ofModifiers modifiers).signed then 8 * (ofModifiers modifiers).width
          else 64) = 8 * (ofModifiers modifiers).width := by
        split
        · rfl
        · rename_i hsigned
          rw [hword.resolve_left hsigned]
      rw [hspan, eq_bmod_iff (by omega)]
    · intro hword
      obtain ⟨hsigned, hshort⟩ := not_or.mp hword
      have hlt := number_lt (ofModifiers modifiers) unit
      have hpow : 2 ^ (8 * unit.length) ≤ 2 ^ 56 := Nat.pow_le_pow_right (by decide) (by omega)
      rw [if_neg hsigned]
      exact Int.bmod_eq_of_le (by omega) (by omega)
  · intro unit other rest behind v m n hunit hother hfirst hsecond
    rw [decode_append hutf8 hunit, hvalue] at hfirst
    rw [decode_append hutf8 hother, hvalue] at hsecond
    simp only [Except.map, Except.ok.injEq, Option.some_inj, Prod.mk.injEq] at hfirst hsecond
    have hspan : 8 * (ofModifiers modifiers).width ≤
        if (ofModifiers modifiers).signed then 8 * (ofModifiers modifiers).width else 64 := by
      split <;> omega
    have hpow := Nat.pow_le_pow_right (show 0 < 2 by decide) hspan
    have hlt := number_lt (ofModifiers modifiers) unit
    have hlt' := number_lt (ofModifiers modifiers) other
    rw [hunit] at hlt
    rw [hother] at hlt'
    refine number_inj (hunit.trans hother.symm) (eq_of_bmod_eq (Nat.lt_of_lt_of_le hlt hpow)
      (Nat.lt_of_lt_of_le hlt' hpow) (hfirst.1.trans hsecond.1.symm))
  · intro unit rest hunit
    have h := decode_little hutf8 hunit rest
    simpa only [ofModifiers_append, List.foldl_cons, List.foldl_nil] using h

/-- A signed unit of 20 bits, which is two bytes, in little order. -/
theorem decode_fixed_width_signed : Modifier.utf8 ∉ [.size 20, .signed, .little] ∧
    (ofModifiers [.size 20, .signed, .little]).width = 2 ∧
    (ofModifiers [.size 20, .signed, .little]).decode [254] = .ok none ∧
    (ofModifiers [.size 20, .signed, .little]).decode [254, 255, 7] = .ok (some (-2, 2)) ∧
    (ofModifiers [.size 20, .signed, .little, .big]).decode [255, 254, 7] =
      .ok (some (-2, 2)) := by
  have hfixed : Modifier.utf8 ∉ [.size 20, .signed, .little] := by decide
  obtain ⟨hnone, hsome, -, horder⟩ :=
    decode_fixed_width [.size 20, .signed, .little] hfixed _ rfl
  obtain ⟨v, -, hdecode, hsigned, -⟩ := hsome [254, 255] [7] _ rfl rfl
  have hv : -2 = v := (hsigned (.inl rfl) (-2)).mpr (by decide)
  have hlittle : (ofModifiers [.size 20, .signed, .little]).decode [254, 255, 7] =
      .ok (some (-2, 2)) := hv ▸ hdecode
  have hbig := (horder [254, 255] [7] rfl).symm.trans hlittle
  exact ⟨hfixed, rfl, (hnone [254]).mpr (by decide), hlittle, hbig⟩

end Shape
end ParserChain
