import ParserChain.Combinator
import ParserChain.Cursor
import ParserChain.Fault
import ParserChain.Guard
import ParserChain.Procedure

/-! Segments: runs of steps that one procedure matches at once. A literal and a unit always fuse, a
group fuses when all of its inner steps do, and a traverse never does. -/
namespace ParserChain

structure Segment where
  /-- The number of steps fused. -/
  consumed : Nat
  inputs : List Pattern
  guards : List Guard
  /-- Most recent first. -/
  outputs : List Term
  deltas : List Delta
  used : List Combinator
  /-- The next free capture variable. -/
  nextVar : Nat

namespace Segment

def empty (var : Nat) : Segment := ⟨0, [], [], [], [], [], var⟩

def isEmpty (s : Segment) : Bool := s.consumed == 0

/-- Whether the segment reads input, and so can fail. -/
def matchesInput (s : Segment) : Bool := !s.inputs.isEmpty

/-- One segment after another. Outputs of the later one are the more recent. -/
def append (s t : Segment) : Segment where
  consumed := s.consumed + t.consumed
  inputs := s.inputs ++ t.inputs
  guards := s.guards ++ t.guards
  outputs := t.outputs ++ s.outputs
  deltas := s.deltas ++ t.deltas
  used := s.used ++ t.used
  nextVar := t.nextVar

/-- The segment of a single step that groups the steps of `s`. -/
def grouped (s : Segment) (step : Combinator) (change : List Term → List Term) : Segment :=
  { s with consumed := 1, used := [step], outputs := change s.outputs }

def ofLiteral (var : Nat) (text : String) : Segment where
  consumed := 1
  inputs := [.literal text]
  guards := []
  outputs := [.str text]
  deltas := [Delta.ofLiteral text]
  used := [.literal text]
  nextVar := var

def ofByteRange (var : Nat) (ranges : List Range) (modifiers : List Modifier) : Segment where
  consumed := 1
  inputs := [.capture var (Shape.ofModifiers modifiers)]
  guards := (Guard.anyOf? (ranges.map (Guard.ofRange var))).toList
  outputs := [.capture var]
  deltas := [.column 1]
  used := [.byteRange ranges modifiers]
  nextVar := var + 1

@[simp] theorem empty_append (s : Segment) (var : Nat) : (empty var).append s = s := by
  simp [empty, append]

theorem append_empty (s : Segment) : s.append (empty s.nextVar) = s := by
  simp [empty, append]

theorem append_assoc (s t u : Segment) : (s.append t).append u = s.append (t.append u) := by
  simp [append, Nat.add_assoc]

end Segment

/-- A function on outputs in matched order, applied to outputs that are most recent first. -/
def mostRecentFirst {α : Type} (f : List α → List α) (outputs : List α) : List α :=
  (f outputs.reverse).reverse

mutual
/-- The segment of one step, if it fuses; captures are numbered from `var`. -/
def Combinator.fuse? (var : Nat) : Combinator → Option Segment
  | .literal text => some (.ofLiteral var text)
  | .byteRange ranges modifiers => some (.ofByteRange var ranges modifiers)
  | .label inner text =>
    let s := Segment.fuse var inner
    if s.consumed = inner.length then some (s.grouped (.label inner text) id) else none
  | .compileTraverse inner f =>
    let s := Segment.fuse var inner
    if s.consumed = inner.length then
      some (s.grouped (.compileTraverse inner f) (mostRecentFirst f.apply))
    else none
  | .traverse .. => none

/-- The segment of the steps up to the first one that does not fuse. -/
def Segment.fuse (var : Nat) : List Combinator → Segment
  | [] => .empty var
  | c :: cs =>
    match c.fuse? var with
    | none => .empty var
    | some s => s.append (Segment.fuse s.nextVar cs)
end

mutual
/-- The number of units that stand before the first traverse of a tree. -/
def Combinator.unitsAhead : Combinator → Nat
  | .literal _ => 0
  | .byteRange .. => 1
  | .label inner _ => unitsAheadAll inner
  | .traverse .. => 0
  | .compileTraverse inner _ => unitsAheadAll inner

def Combinator.unitsAheadAll : List Combinator → Nat
  | [] => 0
  | c :: cs => unitsAhead c + if c.hasTraverse then 0 else unitsAheadAll cs
end

/-- Fuses with captures numbered from a 32-bit seed. A number is handed out for every unit that is
looked at, also in a group that turns out not to fuse. -/
def Segment.extract (seed : Counter) (steps : List Combinator) : Except Fault Segment :=
  if seed.toNat + Combinator.unitsAheadAll steps ≤ Counter.largest then
    .ok (Segment.fuse seed.toNat steps)
  else .error .counterOverflow

theorem Combinator.consumed_of_fuse? {var : Nat} {c : Combinator} {s : Segment}
    (h : c.fuse? var = some s) : s.consumed = 1 := by
  cases c <;> grind [Combinator.fuse?, Segment.ofLiteral, Segment.ofByteRange, Segment.grouped]

theorem Combinator.used_of_fuse? {var : Nat} {c : Combinator} {s : Segment}
    (h : c.fuse? var = some s) : s.used = [c] := by
  cases c <;> grind [Combinator.fuse?, Segment.ofLiteral, Segment.ofByteRange, Segment.grouped]

theorem Segment.fuse_cons_of_some {var : Nat} {c : Combinator} {s : Segment}
    (cs : List Combinator) (h : c.fuse? var = some s) :
    Segment.fuse var (c :: cs) = s.append (Segment.fuse s.nextVar cs) := by
  rw [Segment.fuse, h]

theorem Segment.fuse_cons_of_none {var : Nat} {c : Combinator} (cs : List Combinator)
    (h : c.fuse? var = none) : Segment.fuse var (c :: cs) = .empty var := by
  rw [Segment.fuse, h]

mutual
/-- A step fuses exactly when no traverse stands in it. -/
theorem Combinator.isSome_fuse? (var : Nat) :
    (c : Combinator) → (c.fuse? var).isSome = !c.hasTraverse
  | .literal _ => rfl
  | .byteRange .. => rfl
  | .traverse .. => rfl
  | .label inner text => by
    have h := Segment.consumed_fuse_eq_length var inner
    cases ht : Combinator.anyTraverse inner <;>
      simp [Combinator.fuse?, Combinator.hasTraverse, ht, h]
  | .compileTraverse inner f => by
    have h := Segment.consumed_fuse_eq_length var inner
    cases ht : Combinator.anyTraverse inner <;>
      simp [Combinator.fuse?, Combinator.hasTraverse, ht, h]

theorem Segment.consumed_fuse_eq_length (var : Nat) : (cs : List Combinator) →
    ((Segment.fuse var cs).consumed = cs.length ↔ Combinator.anyTraverse cs = false)
  | [] => by simp [Segment.fuse, Segment.empty, Combinator.anyTraverse]
  | c :: cs => by
    have hc := Combinator.isSome_fuse? var c
    cases hf : c.fuse? var with
    | none =>
      have ht : c.hasTraverse = true := by simpa [hf] using hc
      simp [Segment.fuse_cons_of_none cs hf, Segment.empty, Combinator.anyTraverse, ht]
    | some s =>
      have ht : c.hasTraverse = false := by simpa [hf] using hc
      have h1 := Combinator.consumed_of_fuse? hf
      have ih := Segment.consumed_fuse_eq_length s.nextVar cs
      rw [Segment.fuse_cons_of_some cs hf]
      simp only [Segment.append, h1, List.length_cons, Combinator.anyTraverse, ht, Bool.false_or,
        ← ih]
      omega
end

namespace Segment

theorem consumed_fuse_le (var : Nat) (cs : List Combinator) :
    (fuse var cs).consumed ≤ cs.length := by
  induction cs generalizing var with
  | nil => simp [fuse, empty]
  | cons c cs ih =>
    cases hf : c.fuse? var with
    | none => simp [fuse_cons_of_none cs hf, empty]
    | some s =>
      have h := ih s.nextVar
      have h1 := Combinator.consumed_of_fuse? hf
      rw [fuse_cons_of_some cs hf]
      simp only [append, h1, List.length_cons]
      omega

/-- The steps of a segment are the front of the sequence. -/
theorem used_fuse (var : Nat) (cs : List Combinator) :
    (fuse var cs).used = cs.take (fuse var cs).consumed := by
  induction cs generalizing var with
  | nil => simp [fuse, empty]
  | cons c cs ih =>
    cases hf : c.fuse? var with
    | none => simp [fuse_cons_of_none cs hf, empty]
    | some s =>
      rw [fuse_cons_of_some cs hf]
      simp only [append, Combinator.consumed_of_fuse? hf, Combinator.used_of_fuse? hf, ih]
      rw [Nat.add_comm, List.take_succ_cons]
      rfl

/-- Nothing fuses exactly where a traverse stands in the first step. -/
theorem consumed_fuse_cons_eq_zero (var : Nat) (c : Combinator) (cs : List Combinator) :
    (fuse var (c :: cs)).consumed = 0 ↔ c.hasTraverse = true := by
  have hc := c.isSome_fuse? var
  cases hf : c.fuse? var with
  | none => simpa [fuse_cons_of_none cs hf, empty, hf] using hc
  | some s =>
    have h1 := Combinator.consumed_of_fuse? hf
    have ht : c.hasTraverse = false := by simpa [hf] using hc
    simp [fuse_cons_of_some cs hf, append, h1, ht]

end Segment
end ParserChain
