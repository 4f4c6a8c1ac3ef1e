import ParserChain.Proofs.Leaf

/-! Fusing as a loop that takes in one step after another, and as an operation on whole sequences.
The loop takes in the longest run of steps without a traverse, and the segment of two such runs is
the segment of the first followed by that of the second. -/
namespace ParserChain
namespace Segment

/-- A group is taken in as a single step: what its inner steps read goes behind, and what they put
out goes in front, changed. -/
def merge (s nested : Segment) (step : Combinator) (change : List Term → List Term) : Segment where
  consumed := s.consumed + 1
  inputs := s.inputs ++ nested.inputs
  guards := s.guards ++ nested.guards
  outputs := change nested.outputs ++ s.outputs
  deltas := s.deltas ++ nested.deltas
  used := s.used ++ [step]
  nextVar := nested.nextVar

mutual
/-- Takes in a step at the end, if it fuses. The steps of a group are taken in on their own
first. -/
def absorb? (s : Segment) : Combinator → Option Segment
  | .literal text => some
    { s with
      consumed := s.consumed + 1
      inputs := s.inputs ++ [.literal text]
      outputs := .str text :: s.outputs
      deltas := s.deltas ++ [Delta.ofLiteral text]
      used := s.used ++ [.literal text] }
  | .byteRange ranges modifiers => some
    { consumed := s.consumed + 1
      inputs := s.inputs ++ [.capture s.nextVar (Shape.ofModifiers modifiers)]
      guards := s.guards ++ (Guard.anyOf? (ranges.map (Guard.ofRange s.nextVar))).toList
      outputs := .capture s.nextVar :: s.outputs
      deltas := s.deltas ++ [.column 1]
      used := s.used ++ [.byteRange ranges modifiers]
      nextVar := s.nextVar + 1 }
  | .label inner text =>
    let nested := absorbAll (.empty s.nextVar) inner
    if nested.consumed = inner.length then some (s.merge nested (.label inner text) id) else none
  | .compileTraverse inner f =>
    let nested := absorbAll (.empty s.nextVar) inner
    if nested.consumed = inner.length then
      some (s.merge nested (.compileTraverse inner f) (mostRecentFirst f.apply))
    else none
  | .traverse .. => none

/-- Takes in steps up to the first one that does not fuse. -/
def absorbAll (s : Segment) : List Combinator → Segment
  | [] => s
  | c :: cs =>
    match absorb? s c with
    | none => s
    | some t => absorbAll t cs
end

/-- A group that fuses goes in as a single step, and one that does not fuse is not taken in. -/
lemma map_append_grouped (s nested : Segment) (fuses : Prop) [Decidable fuses] (step : Combinator)
    (change : List Term → List Term) :
    (if fuses then some (nested.grouped step change) else none).map s.append =
      if fuses then some (s.merge nested step change) else none := by
  split <;> rfl

mutual
/-- To take in a step is to put its own segment at the end. -/
theorem absorb?_eq (s : Segment) : (c : Combinator) →
    s.absorb? c = (c.fuse? s.nextVar).map s.append
  | .literal text => by simp [absorb?, append, ofLiteral]
  | .byteRange ranges modifiers => by simp [absorb?, append, ofByteRange]
  | .label inner text => by
    have h := absorbAll_eq (empty s.nextVar) inner
    rw [empty_append] at h
    simp only [absorb?, Combinator.fuse?, h, map_append_grouped]
    rfl
  | .compileTraverse inner f => by
    have h := absorbAll_eq (empty s.nextVar) inner
    rw [empty_append] at h
    simp only [absorb?, Combinator.fuse?, h, map_append_grouped]
    rfl
  | .traverse inner f => by simp [absorb?]

/-- To take in steps one after another is to put the segment of the run that fuses at the end. -/
theorem absorbAll_eq (s : Segment) : (cs : List Combinator) →
    s.absorbAll cs = s.append (fuse s.nextVar cs)
  | [] => by rw [absorbAll, fuse, append_empty]
  | c :: cs => by
    rw [absorbAll, absorb?_eq s c]
    cases hc : c.fuse? s.nextVar with
    | none => rw [fuse_cons_of_none cs hc, append_empty, Option.map_none]
    | some t =>
      have htail := absorbAll_eq (s.append t) cs
      rw [append_assoc] at htail
      rw [fuse_cons_of_some cs hc, Option.map_some]
      exact htail
end

/-- The loop, from a segment that is empty. -/
lemma absorbAll_empty (var : Nat) (cs : List Combinator) :
    (empty var).absorbAll cs = fuse var cs := by
  rw [absorbAll_eq, empty_append]
  rfl

/-- What fuses is a run of steps without a traverse, and no longer one begins the sequence. -/
lemma fuse_longest (var : Nat) (cs : List Combinator) :
    Combinator.anyTraverse (cs.take (fuse var cs).consumed) = false ∧
      ∀ n ≤ cs.length, Combinator.anyTraverse (cs.take n) = false → n ≤ (fuse var cs).consumed := by
  refine ⟨?_, ?_⟩
  · obtain ⟨run, rest, rfl, hrun, hrest⟩ := Combinator.exists_longest_run cs
    have hlen := (consumed_fuse_eq_length var run).mpr hrun
    rw [fuse_append_of_hasTraverse var hrun hrest, hlen, List.take_left]
    exact hrun
  · intro n hn hrun
    have hlen := (consumed_fuse_eq_length var (cs.take n)).mpr hrun
    have hfuse := fuse_append var hrun (cs.drop n)
    rw [List.take_append_drop] at hfuse
    rw [hfuse, append, hlen, List.length_take_of_le hn]
    exact Nat.le_add_right n _

end Segment

open Combinator in
/-- Extraction takes the longest run of steps without a traverse, one step after another. What is
extracted from two sequences in a row, where the first has no traverse, is what is extracted from
the first, followed by what is extracted from the second with the variables that come next. -/
theorem extract_longest_run_and_append :
    (∀ (seed : Counter) (steps : List Combinator),
      seed.toNat + Leaf.varsAll (leavesAll steps) < 4294967296 →
      ∃ s, Segment.extract seed steps = .ok s ∧ s = (Segment.empty seed.toNat).absorbAll steps ∧
        s.consumed ≤ steps.length ∧ anyTraverse (steps.take s.consumed) = false ∧
        (∀ n ≤ steps.length, anyTraverse (steps.take n) = false → n ≤ s.consumed) ∧
        s.used = steps.take s.consumed) ∧
    ∀ (seed : Counter) (front back : List Combinator), anyTraverse front = false →
      seed.toNat + Leaf.varsAll (leavesAll (front ++ back)) < 4294967296 →
      ∃ a b next, Segment.extract seed front = .ok a ∧ next.toNat = a.nextVar ∧
        Segment.extract next back = .ok b ∧ Segment.extract seed (front ++ back) = .ok
          { consumed := a.consumed + b.consumed
            inputs := a.inputs ++ b.inputs
            guards := a.guards ++ b.guards
            outputs := b.outputs ++ a.outputs
            deltas := a.deltas ++ b.deltas
            used := a.used ++ b.used
            nextVar := b.nextVar } := by
  refine ⟨?_, ?_⟩
  · intro seed steps hunits
    obtain ⟨hrun, hlongest⟩ := Segment.fuse_longest seed.toNat steps
    exact ⟨_, Segment.extract_eq hunits, (Segment.absorbAll_empty seed.toNat steps).symm,
      Segment.consumed_fuse_le seed.toNat steps, hrun, hlongest,
      Segment.used_fuse seed.toNat steps⟩
  · intro seed front back hfront hunits
    have hsum := hunits
    rw [leavesAll_append, Leaf.varsAll_append] at hsum
    have hnext := (Segment.reads_fuse seed.toNat front hfront).nextVar
    have htoNat : (Counter.cap (Segment.fuse seed.toNat front).nextVar).toNat =
        (Segment.fuse seed.toNat front).nextVar := by
      rw [Counter.toNat_cap, hnext]
      unfold Counter.largest
      omega
    refine ⟨_, _, Counter.cap (Segment.fuse seed.toNat front).nextVar,
      Segment.extract_eq (by omega), htoNat, Segment.extract_eq (by omega), ?_⟩
    rw [Segment.extract_eq hunits, Segment.fuse_append seed.toNat hfront, htoNat]
    rfl

namespace Combinator

/-- A text and a group that fuse, a label with a traverse behind its first step, and a unit. -/
def mixed : List Combinator :=
  [.literal "<", .compileTraverse [byte, .label [.literal "é"] "e"] ⟨"reverse", List.reverse⟩,
    .label [byte, .traverse [byte] ⟨"reverse", List.reverse⟩] "pair", byte]

/-- The first two steps fuse, and what fuses of the sequence is what fuses of these and no more. -/
theorem extract_longest_run_and_append_mixed :
    (4294967291 : Counter).toNat + Leaf.varsAll (leavesAll mixed) < 4294967296 ∧
    (∃ s, Segment.extract 4294967291 mixed = .ok s ∧ s.consumed = 2 ∧ s.used = mixed.take 2) ∧
    anyTraverse (mixed.take 2) = false ∧
    ∃ a b next, Segment.extract 4294967291 (mixed.take 2) = .ok a ∧ next.toNat = a.nextVar ∧
      Segment.extract next (mixed.drop 2) = .ok b ∧ ∃ s,
        Segment.extract 4294967291 (mixed.take 2 ++ mixed.drop 2) = .ok s ∧
          s.outputs = b.outputs ++ a.outputs := by
  have hunits : (4294967291 : Counter).toNat + Leaf.varsAll (leavesAll mixed) < 4294967296 := by
    decide
  have hfront : anyTraverse (mixed.take 2) = false := by decide
  obtain ⟨s, hs, hloop, -, -, -, hused⟩ :=
    extract_longest_run_and_append.1 4294967291 mixed hunits
  have hconsumed : s.consumed = 2 := by
    rw [hloop]
    decide
  obtain ⟨a, b, next, ha, hnext, hb, hboth⟩ :=
    extract_longest_run_and_append.2 4294967291 (mixed.take 2) (mixed.drop 2) hfront hunits
  exact ⟨hunits, ⟨s, hs, hconsumed, hconsumed ▸ hused⟩, hfront, a, b, next, ha, hnext, hb, _,
    hboth, rfl⟩

end Combinator
end ParserChain
