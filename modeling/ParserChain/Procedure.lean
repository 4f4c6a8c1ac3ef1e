import ParserChain.Capture.Shape
import ParserChain.Cursor
import ParserChain.Guard
import ParserChain.Name
import ParserChain.Transform
import ParserChain.Value

/-! Procedures of a chain. A procedure takes the remaining input, the accumulator (most recent
output first), the stack of saved accumulators and the position. It matches patterns at the front
of the input, tests a guard, and then succeeds, fails, or hands over to another procedure by
name. -/
namespace ParserChain

inductive Pattern
  | literal (text : String)
  | capture (var : Nat) (shape : Shape)
  deriving DecidableEq

inductive StackPattern
  | any
  /-- Takes the frame on top, and does not match an empty stack. -/
  | saved
  deriving DecidableEq

/-- The accumulator handed over. -/
inductive AccUpdate
  | keep
  | empty
  /-- Puts the terms, most recent first, in front. -/
  | prepend (terms : List Term)
  /-- Puts the outputs, transformed as a whole, in front of the saved frame. -/
  | merge (f : Transform Value)
  deriving BEq

/-- The stack handed over, after the stack pattern took its frame. -/
inductive StackUpdate
  | keep
  | push
  | pop
  deriving DecidableEq

inductive Body
  | invoke (target : Name) (acc : AccUpdate) (stack : StackUpdate) (move : Movement)
  | ok
  | error (reason : String)
  deriving BEq

structure Procedure where
  name : Name
  input : List Pattern := []
  stack : StackPattern := .any
  guard : Guard := .always
  body : Body
  /-- Runs instead when the input, the guard or the stack does not match. -/
  fallback : Option Name := none
  deriving BEq

/-- Nothing to prepend leaves the accumulator as it is. -/
def AccUpdate.ofTerms (terms : List Term) : AccUpdate :=
  if terms.isEmpty then .keep else .prepend terms

namespace Body

def target? : Body → Option Name
  | .invoke target .. => some target
  | .ok => none
  | .error _ => none

/-- Sets the movement of an invocation. -/
def moving : Body → Movement → Body
  | .invoke target acc stack _, move => .invoke target acc stack move
  | body, _ => body

/-- Sets the target of an invocation. -/
def retarget : Body → Name → Body
  | .invoke _ acc stack move, target => .invoke target acc stack move
  | body, _ => body

def isOk : Body → Bool
  | .ok => true
  | _ => false

end Body

/-- Whether the procedure can refuse its input. -/
def Procedure.isPartial (p : Procedure) : Bool :=
  !p.input.isEmpty || !p.guard.isAlways || p.stack == .saved

end ParserChain
