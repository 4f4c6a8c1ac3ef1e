import Mathlib.Data.Nat.ModEq
import Mathlib.Tactic.IntervalCases
import Mathlib.Tactic.Lemma
import ParserChain.Text.Utf8

/-! Input that begins with no character. A character is written as the shortest sequence that its
number has. Input in front of which there is no such sequence is empty, begins with a stray byte,
breaks off within a sequence, or holds a whole sequence of a number that may not be written so. -/
namespace ParserChain
namespace Utf8

/-- What the first byte of a sequence adds to its digit, by the number of bytes that continue it. -/
def mark : Nat → Nat
  | 0 => 0
  | 1 => 0xC0
  | 2 => 0xE0
  | _ => 0xF0

/-- The first number that has no sequence with so many continuation bytes. -/
def limit : Nat → Nat
  | 0 => 0x80
  | 1 => 0x800
  | 2 => 0x10000
  | _ => 0x200000

/-- The first number that has no sequence with fewer continuation bytes. -/
def floor : Nat → Nat
  | 0 => 0
  | n + 1 => limit n

/-- The last digits of a number in base 64, each in a continuation byte. -/
def digits : Nat → Nat → List UInt8
  | 0, _ => []
  | n + 1, v => .ofNat (v / 64 ^ n % 64 + 0x80) :: digits n v

/-- A number as a sequence with `n` continuation bytes, whether or not it is that of a character
and whether or not it needs as many. -/
def layout (n v : Nat) : List UInt8 := .ofNat (v / 64 ^ n + mark n) :: digits n v

def IsContinuation (b : UInt8) : Prop := 0x80 ≤ b ∧ b < 0xC0

/-- Input that begins with the sequence of no character. -/
inductive Malformed : List UInt8 → Prop
  | empty : Malformed []
  /-- A byte that begins no sequence. -/
  | stray {b : UInt8} (h : IsContinuation b ∨ 0xF8 ≤ b) (rest : List UInt8) : Malformed (b :: rest)
  /-- A sequence that is given up before its last continuation byte. -/
  | truncated {n v k : Nat} (hn : n ≤ 3) (hv : v < limit n) (hk : k < n) {rest : List UInt8}
      (hrest : ∀ b ∈ rest.head?, ¬ IsContinuation b) : Malformed ((layout n v).take (k + 1) ++ rest)
  | overlong {n v : Nat} (hn : n ≤ 3) (hv : v < floor n) (rest : List UInt8) :
      Malformed (layout n v ++ rest)
  | surrogate {v : Nat} (hlow : 0xD800 ≤ v) (hhigh : v ≤ 0xDFFF) (rest : List UInt8) :
      Malformed (layout 2 v ++ rest)
  | tooLarge {v : Nat} (hlow : 0x10FFFF < v) (hhigh : v < limit 3) (rest : List UInt8) :
      Malformed (layout 3 v ++ rest)

lemma floor_le_limit {n : Nat} (hn : n ≤ 3) : floor n ≤ limit n := by
  interval_cases n <;> decide

lemma div_lt_of_lt_limit {n v : Nat} (hn : n ≤ 3) (hv : v < limit n) :
    v / 64 ^ n + mark n < 256 := by
  interval_cases n <;> simp only [limit, mark] at hv ⊢ <;> omega

@[simp] lemma length_digits (n v : Nat) : (digits n v).length = n := by
  induction n with
  | zero => rfl
  | succ n ih => simp [digits, ih]

lemma isContinuation_digit (d : Nat) : IsContinuation (.ofNat (d % 64 + 0x80)) := by
  have hd : (d % 64 + 0x80) % 2 ^ 8 = d % 64 + 0x80 := Nat.mod_eq_of_lt (by omega)
  simp only [IsContinuation, UInt8.le_iff_toNat_le, UInt8.lt_iff_toNat_lt, UInt8.toNat_ofNat', hd]
  simp only [UInt8.toNat_ofNat]
  omega

lemma isContinuation_of_mem_digits {n v : Nat} {b : UInt8} (h : b ∈ digits n v) :
    IsContinuation b := by
  induction n with
  | zero => simp [digits] at h
  | succ n ih =>
    rcases List.mem_cons.mp h with rfl | hb
    · exact isContinuation_digit _
    · exact ih hb

/-- The digits depend on no more of the number than they show. -/
lemma digits_eq_digits_iff {n v w : Nat} : digits n v = digits n w ↔ v % 64 ^ n = w % 64 ^ n := by
  induction n with
  | zero => simp [digits, Nat.mod_one]
  | succ n ih =>
    have hdigit : UInt8.ofNat (v / 64 ^ n % 64 + 0x80) = .ofNat (w / 64 ^ n % 64 + 0x80) ↔
        v / 64 ^ n % 64 = w / 64 ^ n % 64 := by
      rw [← UInt8.toNat_inj, UInt8.toNat_ofNat', UInt8.toNat_ofNat']
      omega
    rw [digits, digits, List.cons.injEq, hdigit, ih, Nat.mod_pow_succ, Nat.mod_pow_succ]
    have hv := Nat.mod_lt v (Nat.pow_pos (n := n) (show 0 < 64 by decide))
    have hw := Nat.mod_lt w (Nat.pow_pos (n := n) (show 0 < 64 by decide))
    -- The leading digit is the quotient by `64 ^ n`, and the others are the remainder.
    constructor
    · rintro ⟨hhigh, hlow⟩
      rw [hhigh, hlow]
    · intro heq
      have hlow := congrArg (· % 64 ^ n) heq
      have hhigh := congrArg (· / 64 ^ n) heq
      simp only [Nat.add_mul_mod_self_left, Nat.mod_mod] at hlow
      simp only [Nat.add_mul_div_left _ _ (Nat.pow_pos (n := n) (show 0 < 64 by decide)),
        Nat.div_eq_of_lt hv, Nat.div_eq_of_lt hw, Nat.zero_add] at hhigh
      exact ⟨hhigh, hlow⟩

/-- The number of continuation bytes that a first byte asks for. -/
def follows? (b : UInt8) : Option Nat :=
  if b < 0x80 then some 0
  else if b < 0xC0 then none
  else if b < 0xE0 then some 1
  else if b < 0xF0 then some 2
  else if b < 0xF8 then some 3
  else none

lemma follows?_eq_none {b : UInt8} : follows? b = none ↔ IsContinuation b ∨ 0xF8 ≤ b := by
  simp only [follows?, IsContinuation, UInt8.le_iff_toNat_le, UInt8.lt_iff_toNat_lt,
    UInt8.toNat_ofNat]
  grind

lemma follows?_first {n v : Nat} (hn : n ≤ 3) (hv : v < limit n) :
    follows? (.ofNat (v / 64 ^ n + mark n)) = some n := by
  have hbyte : (v / 64 ^ n + mark n) % 2 ^ 8 = v / 64 ^ n + mark n :=
    Nat.mod_eq_of_lt (div_lt_of_lt_limit hn hv)
  simp only [follows?, UInt8.lt_iff_toNat_lt, UInt8.toNat_ofNat', hbyte, UInt8.toNat_ofNat]
  interval_cases n <;> simp only [limit, mark] at hv ⊢ <;> grind

lemma exists_first {b : UInt8} {n : Nat} (h : follows? b = some n) :
    n ≤ 3 ∧ ∃ d, (d + 1) * 64 ^ n ≤ limit n ∧ b = .ofNat (d + mark n) := by
  have hb := UInt8.toNat_lt b
  have hfirst : n ≤ 3 ∧ mark n ≤ b.toNat ∧ (b.toNat - mark n + 1) * 64 ^ n ≤ limit n := by
    simp only [follows?, UInt8.lt_iff_toNat_lt, UInt8.toNat_ofNat] at h
    grind [mark, limit]
  obtain ⟨hn, hmark, hlimit⟩ := hfirst
  refine ⟨hn, b.toNat - mark n, hlimit, ?_⟩
  rw [Nat.sub_add_cancel hmark, UInt8.ofNat_toNat]

lemma eq_of_first_eq {n m v w : Nat} (hn : n ≤ 3) (hm : m ≤ 3) (hv : v < limit n)
    (hw : w < limit m) (h : UInt8.ofNat (v / 64 ^ n + mark n) = .ofNat (w / 64 ^ m + mark m)) :
    n = m := by
  have hfollows := congrArg follows? h
  rw [follows?_first hn hv, follows?_first hm hw] at hfollows
  exact Option.some.inj hfollows

/-- A sequence tells its length by its first byte, and then its number. -/
lemma layout_append_inj {n m v w : Nat} {rest behind : List UInt8} (hn : n ≤ 3) (hm : m ≤ 3)
    (hv : v < limit n) (hw : w < limit m) (h : layout n v ++ rest = layout m w ++ behind) :
    n = m ∧ v = w := by
  obtain ⟨hfirst, hrest⟩ := List.cons.inj h
  obtain rfl := eq_of_first_eq hn hm hv hw hfirst
  have hlow := digits_eq_digits_iff.mp (List.append_inj_left hrest (by simp))
  have hhigh : v / 64 ^ n = w / 64 ^ n := by
    have heq := congrArg UInt8.toNat hfirst
    rw [UInt8.toNat_ofNat', UInt8.toNat_ofNat', Nat.mod_eq_of_lt (div_lt_of_lt_limit hn hv),
      Nat.mod_eq_of_lt (div_lt_of_lt_limit hm hw)] at heq
    exact Nat.add_right_cancel heq
  refine ⟨rfl, ?_⟩
  rw [← Nat.div_add_mod v (64 ^ n), ← Nat.div_add_mod w (64 ^ n), hhigh, hlow]

/-- The digits behind a leading one. -/
lemma digits_add {n v : Nat} (hv : v < 64 ^ n) (d : Nat) :
    (d * 64 ^ n + v) / 64 ^ n = d ∧ digits n (d * 64 ^ n + v) = digits n v := by
  rw [digits_eq_digits_iff, Nat.mul_comm, Nat.mul_add_mod,
    Nat.mul_add_div (Nat.pow_pos (by decide)), Nat.div_eq_of_lt hv]
  exact ⟨Nat.add_zero d, rfl⟩

lemma IsContinuation.exists_digit {b : UInt8} (h : IsContinuation b) :
    ∃ d < 64, b = .ofNat (d + 0x80) := by
  simp only [IsContinuation, UInt8.le_iff_toNat_le, UInt8.lt_iff_toNat_lt, UInt8.toNat_ofNat] at h
  refine ⟨b.toNat - 0x80, by omega, ?_⟩
  rw [Nat.sub_add_cancel (by omega), UInt8.ofNat_toNat]

/-- As many continuation bytes as are asked for stand in front, or fewer and then another byte. -/
lemma exists_digits (n : Nat) (input : List UInt8) : ∃ v rest, v < 64 ^ n ∧
    (input = digits n v ++ rest ∨ ∃ k < n, input = (digits n v).take k ++ rest ∧
      ∀ b ∈ rest.head?, ¬ IsContinuation b) := by
  induction n generalizing input with
  | zero => exact ⟨0, input, by decide, .inl rfl⟩
  | succ n ih =>
    by_cases hnext : ∃ b behind, input = b :: behind ∧ IsContinuation b
    · obtain ⟨b, behind, rfl, hb⟩ := hnext
      obtain ⟨v, rest, hv, hbehind⟩ := ih behind
      obtain ⟨d, hd, rfl⟩ := hb.exists_digit
      obtain ⟨hdiv, hdigits⟩ := digits_add hv d
      have hcons : digits (n + 1) (d * 64 ^ n + v) = .ofNat (d + 0x80) :: digits n v := by
        rw [digits, hdiv, Nat.mod_eq_of_lt hd, hdigits]
      refine ⟨d * 64 ^ n + v, rest, ?_, ?_⟩
      · calc d * 64 ^ n + v < d * 64 ^ n + 64 ^ n := by omega
          _ = (d + 1) * 64 ^ n := (Nat.succ_mul d _).symm
          _ ≤ 64 * 64 ^ n := Nat.mul_le_mul_right _ hd
          _ = 64 ^ (n + 1) := by rw [Nat.pow_succ, Nat.mul_comm]
      · rw [hcons]
        rcases hbehind with rfl | ⟨k, hk, rfl, hrest⟩
        · exact .inl rfl
        · exact .inr ⟨k + 1, Nat.succ_lt_succ hk, rfl, hrest⟩
    · refine ⟨0, input, Nat.pow_pos (by decide), .inr ⟨0, Nat.succ_pos n, rfl, ?_⟩⟩
      intro b hb hcont
      obtain ⟨behind, rfl⟩ := List.head?_eq_some_iff.mp hb
      exact hnext ⟨b, behind, rfl, hcont⟩

/-- The sequence of a character is the shortest that its number has. -/
lemma encode_eq_layout {c : Char} {n : Nat} (hn : n ≤ 3) (hlow : floor n ≤ c.toNat)
    (hhigh : c.toNat < limit n) : encode c = layout n c.toNat := by
  have htoNat : c.val.toNat = c.toNat := rfl
  unfold encode String.utf8EncodeChar
  interval_cases n <;> simp only [floor, limit] at hlow hhigh <;>
    simp only [htoNat, layout, digits, mark] <;> grind

example : encode '€' = layout 2 0x20AC := by decide

lemma exists_floor_le {v : Nat} (hv : v < limit 3) : ∃ n ≤ 3, floor n ≤ v ∧ v < limit n := by
  by_cases h2 : v < limit 2
  · by_cases h1 : v < limit 1
    · by_cases h0 : v < limit 0
      · exact ⟨0, by decide, Nat.zero_le v, h0⟩
      · exact ⟨1, by decide, Nat.le_of_not_lt h0, h1⟩
    · exact ⟨2, by decide, Nat.le_of_not_lt h1, h2⟩
  · exact ⟨3, by decide, Nat.le_of_not_lt h2, hv⟩

lemma exists_layout (c : Char) : ∃ n ≤ 3, floor n ≤ c.toNat ∧ c.toNat < limit n ∧
    encode c = layout n c.toNat := by
  have hc : c.toNat < limit 3 := by
    have hvalid : c.toNat.isValidChar := c.valid
    simp only [limit]
    omega
  obtain ⟨n, hn, hlow, hhigh⟩ := exists_floor_le hc
  exact ⟨n, hn, hlow, hhigh, encode_eq_layout hn hlow hhigh⟩

lemma Malformed.not_begins {input : List UInt8} (h : Malformed input) (c : Char) :
    ¬ encode c <+: input := by
  rintro ⟨behind, hinput⟩
  obtain ⟨m, hm, hlow, hhigh, hlayout⟩ := exists_layout c
  have hvalid : c.toNat.isValidChar := c.valid
  rw [hlayout] at hinput
  cases h with
  | empty => simp [layout] at hinput
  | stray hstray rest =>
    obtain ⟨rfl, -⟩ := List.cons.inj hinput
    rw [← follows?_eq_none, follows?_first hm hhigh] at hstray
    cases hstray
  | @truncated n v k hn hv hk rest hrest =>
    rw [layout, layout, List.take_succ_cons, List.cons_append, List.cons_append] at hinput
    obtain ⟨hfirst, hbehind⟩ := List.cons.inj hinput
    obtain rfl := eq_of_first_eq hm hn hhigh hv hfirst
    -- Where the sequence breaks off, that of the character goes on.
    have hlen : k < (digits m c.toNat).length := by rwa [length_digits]
    have hnext : rest.head? = some (digits m c.toNat)[k] := by
      have hat := congrArg (·[k]?) hbehind
      simp only [List.getElem?_append_left hlen, List.getElem?_eq_getElem hlen] at hat
      rw [hat, List.getElem?_append_right (by simp), List.length_take_of_le (by simp; omega),
        Nat.sub_self, List.head?_eq_getElem?]
    exact hrest _ hnext (isContinuation_of_mem_digits (List.getElem_mem hlen))
  | overlong hn hv rest =>
    obtain ⟨rfl, rfl⟩ := layout_append_inj hm hn hhigh
      (Nat.lt_of_lt_of_le hv (floor_le_limit hn)) hinput
    exact Nat.not_lt.mpr hlow hv
  | @surrogate v hv hv' rest =>
    have hv2 : v < limit 2 := by simp only [limit]; omega
    obtain ⟨-, rfl⟩ := layout_append_inj hm (by decide) hhigh hv2 hinput
    omega
  | tooLarge hv hv' rest =>
    obtain ⟨-, rfl⟩ := layout_append_inj hm (by decide) hhigh hv' hinput
    omega

/-- A whole sequence that nothing speaks against is that of a character. -/
lemma exists_encode_eq_layout {n v : Nat} {behind : List UInt8} (hn : n ≤ 3) (hv : v < limit n)
    (h : ¬ Malformed (layout n v ++ behind)) : ∃ c, encode c = layout n v := by
  have hfloor : floor n ≤ v := Nat.le_of_not_lt fun hlow => h (.overlong hn hlow behind)
  have hsurrogate : v < 0xD800 ∨ 0xDFFF < v := by
    by_contra hbetween
    obtain rfl : n = 2 := by
      interval_cases n <;> simp only [floor, limit] at hfloor hv <;> omega
    exact h (.surrogate (by omega) (by omega) behind)
  have hhigh : v ≤ 0x10FFFF := by
    by_contra hlarge
    obtain rfl : n = 3 := by
      interval_cases n <;> simp only [limit] at hv <;> omega
    exact h (.tooLarge (by omega) hv behind)
  have hvalid : v.isValidChar := by
    unfold Nat.isValidChar
    omega
  obtain ⟨c, rfl⟩ : ∃ c : Char, c.toNat = v := ⟨Char.ofNatAux v hvalid, rfl⟩
  exact ⟨c, encode_eq_layout hn hfloor hv⟩

/-- Whatever begins with no character is malformed at its front. -/
lemma exists_begins_of_not_malformed {input : List UInt8} (h : ¬ Malformed input) :
    ∃ c, encode c <+: input := by
  cases input with
  | nil => exact absurd .empty h
  | cons b rest =>
    cases hb : follows? b with
    | none => exact absurd (.stray (follows?_eq_none.mp hb) rest) h
    | some n =>
      obtain ⟨hn, d, hd, rfl⟩ := exists_first hb
      obtain ⟨u, behind, hu, hrest⟩ := exists_digits n rest
      obtain ⟨hdiv, hdigits⟩ := digits_add hu d
      have hlayout : layout n (d * 64 ^ n + u) = .ofNat (d + mark n) :: digits n u := by
        rw [layout, hdiv, hdigits]
      have hlimit : d * 64 ^ n + u < limit n := by
        rw [Nat.succ_mul] at hd
        omega
      rcases hrest with rfl | ⟨k, hk, rfl, hbehind⟩
      · rw [← List.cons_append, ← hlayout] at h ⊢
        obtain ⟨c, hc⟩ := exists_encode_eq_layout hn hlimit h
        exact ⟨c, behind, by rw [hc]⟩
      · have htake : (layout n (d * 64 ^ n + u)).take (k + 1) =
            .ofNat (d + mark n) :: (digits n u).take k := by rw [hlayout, List.take_succ_cons]
        rw [← List.cons_append, ← htake] at h
        exact absurd (.truncated hn hlimit hk hbehind) h

/-- Input is malformed exactly if it begins with the bytes of no character. -/
theorem malformed_iff {input : List UInt8} : Malformed input ↔ ∀ c, ¬ encode c <+: input := by
  refine ⟨Malformed.not_begins, fun h => ?_⟩
  by_contra hnot
  obtain ⟨c, hc⟩ := exists_begins_of_not_malformed hnot
  exact h c hc

end Utf8
end ParserChain
