import ParserChain.Combinator.Expected
import ParserChain.Compilation.Event
import ParserChain.Segment

/-! The chain of a sequence. The longest run of steps that fuses becomes one link, with a catch-all
if it reads input. Where nothing fuses, a label gives way to its inner steps, and a traverse
becomes a link that saves the accumulator, the chain of its inner steps, and a link that merges. -/
namespace ParserChain

/-- Events so far, with the step of the link left open, or the step that cannot be compiled. -/
structure Draft where
  events : List Event
  finish : Except Combinator Nat

namespace Draft

/-- A chain that adds nothing and leaves a link open. -/
def opened (step : Nat) : Draft := ⟨[], .ok step⟩

def stuck (c : Combinator) : Draft := ⟨[], .error c⟩

def after (events : List Event) (d : Draft) : Draft := { d with events := events ++ d.events }

/-- Goes on from the link left open. -/
def andThen (d : Draft) (next : Nat → Draft) : Draft :=
  match d.finish with
  | .error _ => d
  | .ok step => (next step).after d.events

def procedures (d : Draft) : List Procedure := d.events.filterMap Event.procedure?

end Draft

namespace Segment

/-- The link that matches a segment; it owns a catch-all when the segment reads input. -/
def link (s : Segment) (base : String) (step : Nat) : Procedure where
  name := .link base step
  input := s.inputs
  guard := .allOf s.guards
  body := .invoke (.link base (step + 1)) (.ofTerms s.outputs) .keep (.ofDeltas s.deltas)
  fallback := if s.matchesInput then some (Name.link base step).catchAll else none

/-- Says what the steps of the segment expect. -/
def catchAll (s : Segment) (base : String) (step : Nat) : Procedure where
  name := (Name.link base step).catchAll
  body := .error (Combinator.expected s.used)

def summary (s : Segment) (base : String) (step : Nat) : Event :=
  .segment (.link base step) s.consumed s.inputs.length s.guards.length s.outputs.length
    s.matchesInput

def events (s : Segment) (base : String) (step : Nat) : List Event :=
  [s.summary base step, .procedure (s.link base step)] ++
    if s.matchesInput then [.procedure (s.catchAll base step)] else []

end Segment

/-- Saves the accumulator and starts an empty one for the inner steps. -/
def enterLink (base : String) (step : Nat) : Procedure where
  name := .link base step
  body := .invoke (.link base (step + 1)) .empty .push .still

/-- Transforms the inner outputs and puts them in front of what was saved. -/
def exitLink (base : String) (step : Nat) (f : Transform Value) : Procedure where
  name := .link base step
  stack := .saved
  body := .invoke (.link base (step + 1)) (.merge f) .pop .still

/-- The link on which a chain ends. -/
def successLink (base : String) (step : Nat) : Procedure where
  name := .link base step
  body := .ok

open Combinator in
/-- The chain of the steps from the link `step`, which is open, to the next open link. -/
def chain (base : String) (step : Nat) (steps : List Combinator) : Draft :=
  match steps with
  | [] => .opened step
  | head :: tail =>
    let s := Segment.fuse 0 (head :: tail)
    if h : s.consumed = 0 then
      match head with
      | .label inner text => (chain base step (inner ++ tail)).after [.unwrap text inner.length]
      | .traverse inner f =>
        ((chain base (step + 1) inner).after
            [.unbound (.link base step) (Combinator.traverse inner f).kind,
              .procedure (enterLink base step)]).andThen fun last =>
          (chain base (last + 1) tail).after [.procedure (exitLink base last f)]
      | head => .stuck head
    else (chain base (step + 1) ((head :: tail).drop s.consumed)).after (s.events base step)
termination_by nodesAll steps
decreasing_by
  · simp only [nodesAll, nodes, nodesAll_append]
    omega
  · simp only [nodesAll, nodes]
    omega
  · simp only [nodesAll, nodes]
    omega
  · obtain ⟨n, hn⟩ := Nat.exists_eq_succ_of_ne_zero h
    have hd := nodesAll_drop_le tail n
    have hp := nodes_pos head
    simp only [s] at hn
    simp only [hn, Nat.succ_eq_add_one, List.drop_succ_cons, nodesAll]
    omega

@[simp] theorem chain_nil (base : String) (step : Nat) : chain base step [] = .opened step := by
  rw [chain]

/-- A run of steps that fuses becomes one link, and the chain goes on behind it. -/
theorem chain_of_fuse (base : String) (step : Nat) {c : Combinator} (cs : List Combinator)
    (h : c.hasTraverse = false) :
    chain base step (c :: cs) =
      (chain base (step + 1) ((c :: cs).drop (Segment.fuse 0 (c :: cs)).consumed)).after
        ((Segment.fuse 0 (c :: cs)).events base step) := by
  have hz : (Segment.fuse 0 (c :: cs)).consumed ≠ 0 := by
    simp [Segment.consumed_fuse_cons_eq_zero, h]
  rw [chain.eq_def]
  simp [hz]

/-- A label around a traverse gives way to its inner steps. -/
theorem chain_label (base : String) (step : Nat) (inner : List Combinator) (text : String)
    (cs : List Combinator) (h : Combinator.anyTraverse inner = true) :
    chain base step (.label inner text :: cs) =
      (chain base step (inner ++ cs)).after [.unwrap text inner.length] := by
  have hz : (Segment.fuse 0 (.label inner text :: cs)).consumed = 0 := by
    simpa [Segment.consumed_fuse_cons_eq_zero, Combinator.hasTraverse] using h
  rw [chain.eq_def]
  simp [hz]

/-- A traverse becomes a link that saves, its inner chain, and a link that merges. -/
theorem chain_traverse (base : String) (step : Nat) (inner : List Combinator)
    (f : Transform Value) (cs : List Combinator) :
    chain base step (.traverse inner f :: cs) =
      ((chain base (step + 1) inner).after [.unbound (.link base step) "traverse",
        .procedure (enterLink base step)]).andThen fun last =>
          (chain base (last + 1) cs).after [.procedure (exitLink base last f)] := by
  have hz : (Segment.fuse 0 (.traverse inner f :: cs)).consumed = 0 := by
    simp [Segment.consumed_fuse_cons_eq_zero, Combinator.hasTraverse]
  rw [chain.eq_def]
  simp [hz, Combinator.kind]

/-- A compile-time traverse around a traverse stops the chain. -/
theorem chain_compileTraverse (base : String) (step : Nat) (inner : List Combinator)
    (f : Transform Term) (cs : List Combinator) (h : Combinator.anyTraverse inner = true) :
    chain base step (.compileTraverse inner f :: cs) = .stuck (.compileTraverse inner f) := by
  have hz : (Segment.fuse 0 (.compileTraverse inner f :: cs)).consumed = 0 := by
    simpa [Segment.consumed_fuse_cons_eq_zero, Combinator.hasTraverse] using h
  rw [chain.eq_def]
  simp [hz]

end ParserChain
