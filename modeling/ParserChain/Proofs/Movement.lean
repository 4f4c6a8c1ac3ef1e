import Mathlib.Data.List.Induction
import ParserChain.Proofs.Leaf

/-! Positions, moved leaf by leaf in exact arithmetic or at once by a fused movement. The two agree
as long as the exact position fits after every leaf. -/
namespace ParserChain

/-- The line and the column behind a byte. -/
def pastByte (place : Nat × Nat) (b : UInt8) : Nat × Nat :=
  if b = newline then (place.1 + 1, 1) else (place.1, place.2 + 1)

/-- The position with this line and column, if both fit. -/
def Position.ofNat? (line column : Nat) : Option Position :=
  if line ≤ Counter.largest ∧ column ≤ Counter.largest then
    some ⟨Counter.cap line, Counter.cap column⟩
  else none

/-- The position behind a leaf, if it fits: a text is passed byte by byte, a unit takes a column. -/
def Leaf.move? : Leaf → Position → Option Position
  | literal text, p =>
    let place := (Utf8.bytes text).foldl pastByte (p.line.toNat, p.column.toNat)
    Position.ofNat? place.1 place.2
  | unit .., p => Position.ofNat? p.line.toNat (p.column.toNat + 1)

lemma Position.ofNat?_eq_some {line column : Nat} {p : Position} :
    Position.ofNat? line column = some p ↔ p.line.toNat = line ∧ p.column.toNat = column := by
  constructor
  · intro h
    simp only [Position.ofNat?, Option.ite_none_right_eq_some, Option.some_inj] at h
    obtain ⟨⟨hl, hc⟩, rfl⟩ := h
    simp [Nat.min_eq_left hl, Nat.min_eq_left hc]
  · rintro ⟨rfl, rfl⟩
    simp [Position.ofNat?, Counter.toNat_le_largest]

lemma Delta.lastLine_append_singleton (input : List UInt8) (b : UInt8) :
    lastLine (input ++ [b]) = if b = newline then [] else lastLine input ++ [b] := by
  by_cases h : b = newline <;> simp [lastLine, h]

/-- Passing bytes one by one counts the breaks among them and the bytes after the last break. -/
lemma foldl_pastByte (input : List UInt8) (line column : Nat) :
    input.foldl pastByte (line, column) = (line + input.count newline,
      if newline ∈ input then (Delta.lastLine input).length + 1 else column + input.length) := by
  induction input using List.reverseRecOn with
  | nil => simp
  | append_singleton input b ih =>
    rw [List.foldl_append, ih, List.foldl_cons, List.foldl_nil, pastByte,
      Delta.lastLine_append_singleton]
    by_cases hb : b = newline
    · simp [hb, Nat.add_assoc]
    · have hb' : newline ≠ b := Ne.symm hb
      by_cases hm : newline ∈ input <;> simp [hb, hb', hm, Nat.add_assoc]

namespace Reach

/-- One reach after another. -/
def combine (r s : Reach) : Reach where
  breaks := Counter.addCapped r.breaks s.breaks
  column := if s.broken then s.column else Counter.addCapped r.column s.column
  broken := r.broken || s.broken

lemma addCapped_assoc (a b c : Counter) :
    Counter.addCapped (Counter.addCapped a b) c = Counter.addCapped a (Counter.addCapped b c) := by
  apply UInt32.toNat_inj.1
  simp only [Counter.toNat_addCapped]
  omega

lemma combine_start (r : Reach) : r.combine start = r := by
  have h (a : Counter) : Counter.addCapped a 0 = a := by
    apply UInt32.toNat_inj.1
    have ha := Counter.toNat_le_largest a
    simp [ha]
  simp [combine, start, h]

lemma combine_extend (r s : Reach) (d : Delta) :
    r.combine (s.extend d) = (r.combine s).extend d := by
  cases d with
  | column n => by_cases h : s.broken <;> simp [combine, extend, h, addCapped_assoc]
  | line n c => simp [combine, extend, addCapped_assoc]

/-- Folding deltas onto a reach puts the reach of the deltas behind it. -/
lemma foldl_extend (r : Reach) (deltas : List Delta) :
    deltas.foldl extend r = r.combine (deltas.foldl extend start) := by
  induction deltas using List.reverseRecOn with
  | nil => exact (combine_start r).symm
  | append_singleton deltas d ih => simp [List.foldl_append, ih, combine_extend]

/-- A reach moves by its breaks, and by its column from where it was or from the line's start. -/
lemma move?_movement {r : Reach} {p q : Position} :
    r.movement.move? p = some q ↔ q.line.toNat = p.line.toNat + r.breaks.toNat ∧
      q.column.toNat = (if r.broken then 0 else p.column.toNat) + r.column.toNat := by
  have hline : (if r.breaks = 0 then LineMove.incoming else .advance r.breaks).move? p.line =
      Counter.add? p.line r.breaks := by
    split
    · rename_i h
      simp [LineMove.move?, h, eq_comm (a := some p.line), Counter.add?_eq_some]
    · rfl
  have hcolumn : (if r.broken then ColumnMove.reset r.column else .advance r.column).move?
      p.column = Counter.add? (if r.broken then 0 else p.column) r.column := by
    split
    · simp [ColumnMove.move?, eq_comm (a := some r.column), Counter.add?_eq_some]
    · rfl
  have hzero : (if r.broken then 0 else p.column.toNat) =
      (if r.broken then (0 : Counter) else p.column).toNat := by
    split <;> rfl
  rw [hzero, ← Counter.add?_eq_some, ← Counter.add?_eq_some]
  simp only [movement, Movement.move?, hline, hcolumn]
  cases Counter.add? p.line r.breaks <;>
    cases Counter.add? (if r.broken then 0 else p.column) r.column <;> simp
  rw [eq_comm]
  constructor
  · rintro rfl
    exact ⟨rfl, rfl⟩
  · rintro ⟨rfl, rfl⟩
    rfl

/-- Two reaches that fit one after the other fit at once, and lead to the same place. -/
lemma move?_combine {r s : Reach} {p q t : Position} (hr : r.movement.move? p = some q)
    (hs : s.movement.move? q = some t) : (r.combine s).movement.move? p = some t := by
  rw [move?_movement] at hr hs ⊢
  have hline := Counter.toNat_le_largest t.line
  have hcolumn := Counter.toNat_le_largest t.column
  constructor
  · simp only [combine, Counter.toNat_addCapped]
    omega
  · cases hb : s.broken <;> cases hb' : r.broken <;>
      simp only [combine, hb, hb', Bool.or_false, Bool.or_true, if_true, if_false,
        Bool.false_eq_true, Counter.toNat_addCapped] at hr hs ⊢ <;>
      omega

end Reach

namespace Movement

/-- Moving by two runs of deltas in turn is moving by both at once. -/
lemma move?_ofDeltas_append {a b : List Delta} {p q t : Position}
    (ha : (ofDeltas a).move? p = some q) (hb : (ofDeltas b).move? q = some t) :
    (ofDeltas (a ++ b)).move? p = some t := by
  rw [ofDeltas, List.foldl_append, Reach.foldl_extend]
  exact Reach.move?_combine ha hb

end Movement

/-- A leaf moves the position as its delta does. -/
lemma Leaf.move?_ofDeltas {l : Leaf} {p q : Position} (h : l.move? p = some q) :
    (Movement.ofDeltas [l.delta]).move? p = some q := by
  have hline := Counter.toNat_le_largest q.line
  have hcolumn := Counter.toNat_le_largest q.column
  rw [Movement.ofDeltas, List.foldl_cons, List.foldl_nil, Reach.move?_movement]
  cases l with
  | unit ranges modifiers =>
    rw [Leaf.move?, Position.ofNat?_eq_some] at h
    simp [Leaf.delta, Reach.extend, Reach.start, Counter.largest, h]
  | literal text =>
    have hzero : (0 : Counter).toNat = 0 := rfl
    have hone : (1 : Counter).toNat = 1 := rfl
    simp only [Leaf.move?, foldl_pastByte, Position.ofNat?_eq_some] at h
    obtain ⟨hl, hc⟩ := h
    by_cases hm : newline ∈ Utf8.bytes text
    · simp only [hm, if_true] at hc
      simp only [Leaf.delta, Delta.ofLiteral, Delta.ofBytes, hm, Reach.extend, Reach.start,
        if_true, Counter.toNat_addCapped, Counter.toNat_cap, hzero, hone]
      omega
    · simp only [hm, if_false] at hc
      have hz : (Utf8.bytes text).count newline = 0 := List.count_eq_zero.mpr hm
      simp only [Leaf.delta, Delta.ofLiteral, Delta.ofBytes, hm, Reach.extend, Reach.start,
        if_false, Bool.false_eq_true, Counter.toNat_addCapped, Counter.toNat_cap, hzero]
      omega

end ParserChain
