import Mathlib.Tactic.Lemma
import ParserChain.Segment

/-! The leaves of a tree of steps, from left to right. A run of steps that fuses is laid out by its
leaves: a pattern and a delta for each of them, and a guard for each unit that has ranges. -/
namespace ParserChain

/-- A step that reads input. -/
inductive Leaf
  | literal (text : String)
  | unit (ranges : List Range) (modifiers : List Modifier)

namespace Combinator

mutual
def leaves : Combinator → List Leaf
  | .literal text => [.literal text]
  | .byteRange ranges modifiers => [.unit ranges modifiers]
  | .label inner _ => leavesAll inner
  | .traverse inner _ => leavesAll inner
  | .compileTraverse inner _ => leavesAll inner

def leavesAll : List Combinator → List Leaf
  | [] => []
  | c :: cs => leaves c ++ leavesAll cs
end

@[simp] lemma leavesAll_append (cs ds : List Combinator) :
    leavesAll (cs ++ ds) = leavesAll cs ++ leavesAll ds := by
  induction cs with
  | nil => rfl
  | cons c cs ih => simp [leavesAll, ih]

end Combinator

namespace Leaf

/-- The number of capture variables a leaf takes. -/
def vars : Leaf → Nat
  | literal _ => 0
  | unit .. => 1

def pattern (var : Nat) : Leaf → Pattern
  | literal text => .literal text
  | unit _ modifiers => .capture var (Shape.ofModifiers modifiers)

def guard? (var : Nat) : Leaf → Option Guard
  | literal _ => none
  | unit ranges _ => Guard.anyOf? (ranges.map (Guard.ofRange var))

/-- What a leaf puts out, with its capture still open. -/
def term (var : Nat) : Leaf → Term
  | literal text => .str text
  | unit .. => .capture var

def delta : Leaf → Delta
  | literal text => .ofLiteral text
  | unit .. => .column 1

/-- Leaves with the variable that each is given. -/
def numbered (var : Nat) : List Leaf → List (Leaf × Nat)
  | [] => []
  | l :: ls => (l, var) :: numbered (var + l.vars) ls

def varsAll : List Leaf → Nat
  | [] => 0
  | l :: ls => l.vars + varsAll ls

lemma varsAll_append (ls ms : List Leaf) : varsAll (ls ++ ms) = varsAll ls + varsAll ms := by
  induction ls with
  | nil => simp [varsAll]
  | cons l ls ih => simp [varsAll, ih, Nat.add_assoc]

def patterns (var : Nat) (leaves : List Leaf) : List Pattern :=
  (numbered var leaves).map fun (l, v) => l.pattern v

def guards (var : Nat) (leaves : List Leaf) : List Guard :=
  (numbered var leaves).filterMap fun (l, v) => l.guard? v

def terms (var : Nat) (leaves : List Leaf) : List Term :=
  (numbered var leaves).map fun (l, v) => l.term v

@[simp] lemma patterns_cons (var : Nat) (l : Leaf) (ls : List Leaf) :
    patterns var (l :: ls) = l.pattern var :: patterns (var + l.vars) ls := rfl

@[simp] lemma terms_cons (var : Nat) (l : Leaf) (ls : List Leaf) :
    terms var (l :: ls) = l.term var :: terms (var + l.vars) ls := rfl

lemma guards_cons (var : Nat) (l : Leaf) (ls : List Leaf) :
    guards var (l :: ls) = (l.guard? var).toList ++ guards (var + l.vars) ls := by
  cases h : l.guard? var <;> simp [guards, numbered, h]

lemma numbered_append (var : Nat) (ls ms : List Leaf) :
    numbered var (ls ++ ms) = numbered var ls ++ numbered (var + varsAll ls) ms := by
  induction ls generalizing var with
  | nil => simp [numbered, varsAll]
  | cons l ls ih => simp [numbered, varsAll, ih, Nat.add_assoc]

@[simp] lemma length_numbered (var : Nat) (ls : List Leaf) :
    (numbered var ls).length = ls.length := by
  induction ls generalizing var with
  | nil => rfl
  | cons l ls ih => simp [numbered, ih]

lemma terms_append (var : Nat) (ls ms : List Leaf) :
    terms var (ls ++ ms) = terms var ls ++ terms (var + varsAll ls) ms := by
  simp [terms, numbered_append]

end Leaf

/-- The segment reads these leaves, and its captures are numbered from the variable. -/
structure Segment.Reads (s : Segment) (var : Nat) (leaves : List Leaf) : Prop where
  inputs : s.inputs = Leaf.patterns var leaves
  guards : s.guards = Leaf.guards var leaves
  deltas : s.deltas = leaves.map Leaf.delta
  nextVar : s.nextVar = var + Leaf.varsAll leaves

namespace Segment

lemma reads_empty (var : Nat) : (empty var).Reads var [] :=
  ⟨rfl, rfl, rfl, rfl⟩

lemma reads_ofLiteral (var : Nat) (text : String) :
    (ofLiteral var text).Reads var [.literal text] :=
  ⟨rfl, rfl, rfl, rfl⟩

lemma reads_ofByteRange (var : Nat) (ranges : List Range) (modifiers : List Modifier) :
    (ofByteRange var ranges modifiers).Reads var [.unit ranges modifiers] := by
  refine ⟨rfl, ?_, rfl, rfl⟩
  rw [Leaf.guards_cons]
  simp [ofByteRange, Leaf.guards, Leaf.numbered, Leaf.guard?]

lemma Reads.append {s t : Segment} {var : Nat} {ls ms : List Leaf} (hs : s.Reads var ls)
    (ht : t.Reads s.nextVar ms) : (s.append t).Reads var (ls ++ ms) := by
  have hv := hs.nextVar
  refine ⟨?_, ?_, ?_, ?_⟩
  · simp [Segment.append, hs.inputs, ht.inputs, hv, Leaf.patterns, Leaf.numbered_append]
  · simp [Segment.append, hs.guards, ht.guards, hv, Leaf.guards, Leaf.numbered_append]
  · simp [Segment.append, hs.deltas, ht.deltas]
  · simp [Segment.append, ht.nextVar, hv, Leaf.varsAll_append, Nat.add_assoc]

lemma Reads.grouped {s : Segment} {var : Nat} {ls : List Leaf} (h : s.Reads var ls)
    (step : Combinator) (change : List Term → List Term) :
    (s.grouped step change).Reads var ls :=
  ⟨h.inputs, h.guards, h.deltas, h.nextVar⟩

end Segment

lemma Combinator.exists_fuse? (var : Nat) {c : Combinator} (h : c.hasTraverse = false) :
    ∃ s, c.fuse? var = some s := by
  have hf := c.isSome_fuse? var
  rw [h] at hf
  exact Option.isSome_iff_exists.mp hf

lemma Combinator.fuse?_eq_none (var : Nat) {c : Combinator} (h : c.hasTraverse = true) :
    c.fuse? var = none := by
  have hf := c.isSome_fuse? var
  rw [h] at hf
  simpa using hf

namespace Combinator

@[simp] lemma fuse?_literal (var : Nat) (text : String) :
    (literal text).fuse? var = some (.ofLiteral var text) := by rw [fuse?]

@[simp] lemma fuse?_byteRange (var : Nat) (ranges : List Range) (modifiers : List Modifier) :
    (byteRange ranges modifiers).fuse? var = some (.ofByteRange var ranges modifiers) := by
  rw [fuse?]

@[simp] lemma fuse?_traverse (var : Nat) (inner : List Combinator) (f : Transform Value) :
    (traverse inner f).fuse? var = none := by rw [fuse?]

lemma fuse?_label {var : Nat} {inner : List Combinator} {text : String} {s : Segment} :
    (label inner text).fuse? var = some s ↔ anyTraverse inner = false ∧
      (Segment.fuse var inner).grouped (.label inner text) id = s := by
  simp [fuse?, Segment.consumed_fuse_eq_length]

lemma fuse?_compileTraverse {var : Nat} {inner : List Combinator} {f : Transform Term}
    {s : Segment} :
    (compileTraverse inner f).fuse? var = some s ↔ anyTraverse inner = false ∧
      (Segment.fuse var inner).grouped (.compileTraverse inner f) (mostRecentFirst f.apply) =
        s := by
  simp [fuse?, Segment.consumed_fuse_eq_length]

end Combinator

mutual
/-- The segment of a step reads the leaves of the step. -/
theorem Combinator.reads_of_fuse? (var : Nat) : (c : Combinator) → {s : Segment} →
    c.fuse? var = some s → s.Reads var c.leaves
  | .literal text, s, h => by
    obtain rfl : Segment.ofLiteral var text = s := by simpa using h
    exact Segment.reads_ofLiteral var text
  | .byteRange ranges modifiers, s, h => by
    obtain rfl : Segment.ofByteRange var ranges modifiers = s := by simpa using h
    exact Segment.reads_ofByteRange var ranges modifiers
  | .label inner text, s, h => by
    obtain ⟨ht, rfl⟩ := Combinator.fuse?_label.mp h
    exact (Segment.reads_fuse var inner ht).grouped _ _
  | .compileTraverse inner f, s, h => by
    obtain ⟨ht, rfl⟩ := Combinator.fuse?_compileTraverse.mp h
    exact (Segment.reads_fuse var inner ht).grouped _ _
  | .traverse inner f, s, h => by simp at h

/-- A run of steps that fuses reads all of its leaves in order. -/
theorem Segment.reads_fuse (var : Nat) : (cs : List Combinator) →
    Combinator.anyTraverse cs = false → (Segment.fuse var cs).Reads var (Combinator.leavesAll cs)
  | [], _ => by
    simpa [Segment.fuse, Combinator.leavesAll] using Segment.reads_empty var
  | c :: cs, h => by
    simp only [Combinator.anyTraverse, Bool.or_eq_false_iff] at h
    obtain ⟨hc, hcs⟩ := h
    obtain ⟨s, hs⟩ := Combinator.exists_fuse? var hc
    rw [Segment.fuse_cons_of_some cs hs, Combinator.leavesAll]
    exact (Combinator.reads_of_fuse? var c hs).append (Segment.reads_fuse s.nextVar cs hcs)
end

/-- Every sequence begins with a longest run of steps without a traverse, which may be empty. -/
lemma Combinator.exists_longest_run (cs : List Combinator) : ∃ run rest, cs = run ++ rest ∧
    anyTraverse run = false ∧ ∀ c ∈ rest.head?, c.hasTraverse = true := by
  induction cs with
  | nil => exact ⟨[], [], rfl, rfl, by simp⟩
  | cons c cs ih =>
    cases ht : c.hasTraverse with
    | true => exact ⟨[], c :: cs, rfl, rfl, by simpa using ht⟩
    | false =>
      obtain ⟨run, rest, rfl, hrun, hrest⟩ := ih
      exact ⟨c :: run, rest, rfl, by simp [anyTraverse, ht, hrun], hrest⟩

namespace Segment

/-- Behind steps that all fuse, fusing goes on as from the front. -/
lemma fuse_append (var : Nat) {run : List Combinator} (hrun : Combinator.anyTraverse run = false)
    (rest : List Combinator) :
    fuse var (run ++ rest) = (fuse var run).append (fuse (fuse var run).nextVar rest) := by
  induction run generalizing var with
  | nil => rw [List.nil_append, fuse, empty_append, empty]
  | cons c cs ih =>
    simp only [Combinator.anyTraverse, Bool.or_eq_false_iff] at hrun
    obtain ⟨s, hs⟩ := Combinator.exists_fuse? var hrun.1
    rw [List.cons_append, fuse_cons_of_some _ hs, fuse_cons_of_some _ hs, ih s.nextVar hrun.2,
      append_assoc]
    rfl

/-- Fusing stops in front of a step that holds a traverse. -/
lemma fuse_append_of_hasTraverse (var : Nat) {run rest : List Combinator}
    (hrun : Combinator.anyTraverse run = false)
    (hrest : ∀ c ∈ rest.head?, c.hasTraverse = true) : fuse var (run ++ rest) = fuse var run := by
  have hnone (v : Nat) : fuse v rest = empty v := by
    cases rest with
    | nil => rfl
    | cons c cs => exact fuse_cons_of_none cs (Combinator.fuse?_eq_none v (hrest c rfl))
  rw [fuse_append var hrun, hnone, append_empty]

end Segment

namespace Combinator

mutual
/-- The units in front of the first traverse are among the units of the tree. -/
lemma unitsAhead_le : (c : Combinator) → c.unitsAhead ≤ Leaf.varsAll c.leaves
  | .literal text => by simp [unitsAhead]
  | .byteRange ranges modifiers => by simp [unitsAhead, leaves, Leaf.varsAll, Leaf.vars]
  | .label inner text => by simpa [unitsAhead, leaves] using unitsAheadAll_le inner
  | .traverse inner f => by simp [unitsAhead]
  | .compileTraverse inner f => by simpa [unitsAhead, leaves] using unitsAheadAll_le inner

lemma unitsAheadAll_le : (cs : List Combinator) →
    unitsAheadAll cs ≤ Leaf.varsAll (leavesAll cs)
  | [] => by simp [unitsAheadAll]
  | c :: cs => by
    have hc := unitsAhead_le c
    have hcs := unitsAheadAll_le cs
    rw [unitsAheadAll, leavesAll, Leaf.varsAll_append]
    split <;> omega
end

end Combinator

/-- Where the units of a sequence can all be numbered, extraction goes through. -/
lemma Segment.extract_eq {seed : Counter} {steps : List Combinator}
    (h : seed.toNat + Leaf.varsAll (Combinator.leavesAll steps) < 4294967296) :
    extract seed steps = .ok (fuse seed.toNat steps) := by
  have hunits := Combinator.unitsAheadAll_le steps
  refine if_pos ?_
  unfold Counter.largest
  omega

end ParserChain
