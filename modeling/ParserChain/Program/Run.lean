import ParserChain.Capture.Decode
import ParserChain.Program

/-! Running a program. A machine state holds the name of the next procedure and the values of its
parameters; one turn enters that procedure, and a run takes turns until an outcome, a fault, or the
end of its fuel. -/
namespace ParserChain

inductive Outcome
  /-- Values in matched order and what is left of the input. -/
  | ok (values : List Value) (remainder : List UInt8) (position : Position)
  /-- The input and position are those at which the failing procedure began. -/
  | error (reason : String) (remainder : List UInt8) (position : Position)
  deriving DecidableEq

namespace Outcome

def isOk : Outcome → Bool
  | .ok .. => true
  | .error .. => false

def position : Outcome → Position
  | .ok _ _ position => position
  | .error _ _ position => position

def remainder : Outcome → List UInt8
  | .ok _ remainder _ => remainder
  | .error _ remainder _ => remainder

end Outcome

/-- Captured values, the latest binding of a variable first. -/
abbrev Bindings := List (Nat × Int)

def Bindings.value? (b : Bindings) (var : Nat) : Option Int := b.lookup var

/-- The input after a pattern, and the binding it makes; `none` if it does not match. -/
def Pattern.take (input : List UInt8) : Pattern → Except Fault (Option (Bindings × List UInt8))
  | .literal text => .ok (((Utf8.bytes text).isPrefixOf? input).map ([], ·))
  | .capture var shape =>
    (shape.decode input).map fun unit =>
      unit.map fun (value, width) => ([(var, value)], input.drop width)

/-- Matches patterns one after another; a variable bound twice has its later value. -/
def takeAll (bound : Bindings) (input : List UInt8) :
    List Pattern → Except Fault (Option (Bindings × List UInt8))
  | [] => .ok (some (bound, input))
  | p :: ps =>
    match p.take input with
    | .error fault => .error fault
    | .ok none => .ok none
    | .ok (some (new, rest)) => takeAll (new ++ bound) rest ps

structure State where
  current : Name
  rest : List UInt8
  /-- Most recent first. -/
  acc : List Value
  stack : List (List Value)
  position : Position
  deriving DecidableEq

inductive Turn
  | next (state : State)
  | halt (outcome : Outcome)
  | fault (fault : Fault)
  deriving DecidableEq

/-- The new accumulator, from the captures, the frame that was taken and the old one. -/
def AccUpdate.apply (update : AccUpdate) (bound : Bindings) (saved : Option (List Value))
    (acc : List Value) : Except Fault (List Value) :=
  match update with
  | .keep => .ok acc
  | .empty => .ok []
  | .prepend terms =>
    match Term.resolveAll bound.value? terms with
    | none => .error .unboundCapture
    | some values => .ok (values ++ acc)
  | .merge f =>
    match saved with
    | none => .error .noSavedFrame
    | some frame => .ok ((f.apply acc.reverse).reverse ++ frame)

/-- Taking the frame that a stack pattern asks for, with the stack left; `none` if there is none. -/
def StackPattern.take : StackPattern → List (List Value) →
    Option (Option (List Value) × List (List Value))
  | .any, stack => some (none, stack)
  | .saved, [] => none
  | .saved, frame :: stack => some (some frame, stack)

def StackUpdate.apply (update : StackUpdate) (acc : List Value) (stack : List (List Value)) :
    List (List Value) :=
  match update with
  | .keep => stack
  | .push => acc :: stack
  | .pop => stack

/-- The turn of a body after everything matched. -/
def Body.perform (body : Body) (s : State) (bound : Bindings) (saved : Option (List Value))
    (stack : List (List Value)) (remainder : List UInt8) : Turn :=
  match body with
  | .ok => .halt (.ok s.acc.reverse remainder s.position)
  | .error reason => .halt (.error reason s.rest s.position)
  | .invoke target update stackUpdate move =>
    match update.apply bound saved s.acc with
    | .error fault => .fault fault
    | .ok acc =>
      match move.move? s.position with
      | none => .fault .counterOverflow
      | some position =>
        .next ⟨target, remainder, acc, stackUpdate.apply s.acc stack, position⟩

namespace Procedure

/-- The fallback sees what this procedure was given. -/
def refuse (p : Procedure) (s : State) : Turn :=
  match p.fallback with
  | none => .fault (.refused p.name)
  | some name => .next { s with current := name }

def turn (p : Procedure) (s : State) : Turn :=
  match takeAll [] s.rest p.input with
  | .error fault => .fault fault
  | .ok none => p.refuse s
  | .ok (some (bound, remainder)) =>
    if p.guard.test bound.value? then
      match p.stack.take s.stack with
      | none => p.refuse s
      | some (saved, stack) => p.body.perform s bound saved stack remainder
    else p.refuse s

end Procedure

/-- A procedure that was called for, and how deep the stack was. -/
structure Visit where
  name : Name
  depth : Nat
  deriving DecidableEq

def State.visit (s : State) : Visit := ⟨s.current, s.stack.length⟩

inductive Ending
  | done (outcome : Outcome)
  | fault (fault : Fault)
  | outOfFuel
  deriving DecidableEq

structure Run where
  ending : Ending
  visits : List Visit
  deriving DecidableEq

namespace Run

/-- The run that makes one visit more in front. -/
def after (r : Run) (visit : Visit) : Run := { r with visits := visit :: r.visits }

/-- The stack depth when a procedure was first entered. -/
def depthAt? (r : Run) (name : Name) : Option Nat :=
  (r.visits.find? (·.name == name)).map (·.depth)

end Run

namespace Program

/-- The procedure that a run enters: the last of its name. -/
def resolve? (p : Program) (name : Name) : Option Procedure :=
  p.procedures.reverse.find? (·.name == name)

def turn (p : Program) (s : State) : Turn :=
  match p.resolve? s.current with
  | none => .fault (.undefinedProcedure s.current)
  | some d => d.turn s

def initial (p : Program) (input : List UInt8) : State :=
  ⟨p.entry.target, input, [], [], p.entry.start⟩

/-- Takes turns from a state, noting a visit at each, until one ends the run. -/
def runFrom (p : Program) : Nat → State → Run
  | 0, _ => ⟨.outOfFuel, []⟩
  | fuel + 1, s =>
    match p.turn s with
    | .halt outcome => ⟨.done outcome, [s.visit]⟩
    | .fault fault => ⟨.fault fault, [s.visit]⟩
    | .next t => (runFrom p fuel t).after s.visit

/-- A run from the entry, over at most `fuel` turns. -/
def run (p : Program) (fuel : Nat) (input : List UInt8) : Run := p.runFrom fuel (p.initial input)

/-- How a run from a state ends. The visits on the way are not kept, so that a run of any length
takes no room for them. -/
def endingFrom (p : Program) : Nat → State → Ending
  | 0, _ => .outOfFuel
  | fuel + 1, s =>
    match p.turn s with
    | .halt outcome => .done outcome
    | .fault fault => .fault fault
    | .next t => p.endingFrom fuel t

/-- How a run from the entry ends, over at most `fuel` turns. -/
def ending (p : Program) (fuel : Nat) (input : List UInt8) : Ending :=
  p.endingFrom fuel (p.initial input)

@[simp] theorem ending_runFrom (p : Program) (fuel : Nat) (s : State) :
    (p.runFrom fuel s).ending = p.endingFrom fuel s := by
  induction fuel generalizing s with
  | zero => rfl
  | succ fuel ih => cases ht : p.turn s <;> simp [runFrom, endingFrom, ht, Run.after, ih]

@[simp] theorem ending_run (p : Program) (fuel : Nat) (input : List UInt8) :
    (p.run fuel input).ending = p.ending fuel input :=
  ending_runFrom ..

/-- More fuel does not change a run that has ended. -/
theorem runFrom_add {p : Program} {fuel : Nat} {s : State}
    (h : (p.runFrom fuel s).ending ≠ .outOfFuel) (more : Nat) :
    p.runFrom (fuel + more) s = p.runFrom fuel s := by
  induction fuel generalizing s with
  | zero => simp [runFrom] at h
  | succ fuel ih =>
    rw [Nat.succ_add]
    cases ht : p.turn s with
    | halt outcome => simp [runFrom, ht]
    | fault fault => simp [runFrom, ht]
    | next t =>
      have ht' : (p.runFrom fuel t).ending ≠ .outOfFuel := by
        simpa [runFrom, ht, Run.after] using h
      simp [runFrom, ht, ih ht']

end Program
end ParserChain
