import ParserChain.Capture.Shape
import ParserChain.Range
import ParserChain.Transform
import ParserChain.Value

/-! Parsing steps. A literal and a unit read input; the other steps group an inner sequence, to
name it in failures or to transform its outputs at run time or while the chain is built. -/
namespace ParserChain

inductive Combinator
  | literal (text : String)
  /-- One unit whose value lies in one of the ranges, or any unit if there are none. -/
  | byteRange (ranges : List Range) (modifiers : List Modifier)
  /-- Inner steps that a failure calls by the text. -/
  | label (inner : List Combinator) (text : String)
  /-- Inner steps whose outputs are transformed when the chain runs. -/
  | traverse (inner : List Combinator) (f : Transform Value)
  /-- Inner steps whose outputs are transformed while the chain is built. -/
  | compileTraverse (inner : List Combinator) (f : Transform Term)

namespace Combinator

def byte : Combinator := .byteRange [] []

/-- One UTF-8 character in one of the ranges. -/
def utf8Range (ranges : List Range) : Combinator := .byteRange ranges [.utf8]

/-- Appends modifiers to a unit; any other step stays as it is. -/
def withModifiers : Combinator → List Modifier → Combinator
  | .byteRange ranges modifiers, extra => .byteRange ranges (modifiers ++ extra)
  | c, _ => c

def kind : Combinator → String
  | .literal _ => "literal"
  | .byteRange .. => "byte_range"
  | .label .. => "label"
  | .traverse .. => "traverse"
  | .compileTraverse .. => "compile_traverse"

mutual
/-- Equality of steps, where transforms are compared by name. -/
def beq : Combinator → Combinator → Bool
  | .literal s, .literal t => s == t
  | .byteRange rs ms, .byteRange ss ns => rs == ss && ms == ns
  | .label inner s, .label inner' t => beqAll inner inner' && s == t
  | .traverse inner f, .traverse inner' g => beqAll inner inner' && f == g
  | .compileTraverse inner f, .compileTraverse inner' g => beqAll inner inner' && f == g
  | _, _ => false

def beqAll : List Combinator → List Combinator → Bool
  | [], [] => true
  | c :: cs, d :: ds => beq c d && beqAll cs ds
  | _, _ => false
end

instance : BEq Combinator := ⟨beq⟩

mutual
/-- The number of steps in the tree. -/
def nodes : Combinator → Nat
  | .literal _ => 1
  | .byteRange .. => 1
  | .label inner _ => 1 + nodesAll inner
  | .traverse inner _ => 1 + nodesAll inner
  | .compileTraverse inner _ => 1 + nodesAll inner

def nodesAll : List Combinator → Nat
  | [] => 0
  | c :: cs => nodes c + nodesAll cs
end

theorem nodes_pos (c : Combinator) : 0 < c.nodes := by
  cases c <;> simp only [nodes] <;> omega

@[simp] theorem nodesAll_append (cs ds : List Combinator) :
    nodesAll (cs ++ ds) = nodesAll cs + nodesAll ds := by
  induction cs with
  | nil => simp [nodesAll]
  | cons c cs ih => simp [nodesAll, ih, Nat.add_assoc]

theorem nodesAll_drop_le (cs : List Combinator) (n : Nat) :
    nodesAll (cs.drop n) ≤ nodesAll cs := by
  have h := nodesAll_append (cs.take n) (cs.drop n)
  rw [List.take_append_drop] at h
  omega

mutual
/-- Whether a traverse stands anywhere in the tree. -/
def hasTraverse : Combinator → Bool
  | .literal _ => false
  | .byteRange .. => false
  | .label inner _ => anyTraverse inner
  | .traverse .. => true
  | .compileTraverse inner _ => anyTraverse inner

def anyTraverse : List Combinator → Bool
  | [] => false
  | c :: cs => hasTraverse c || anyTraverse cs
end

theorem anyTraverse_eq_any (cs : List Combinator) : anyTraverse cs = cs.any hasTraverse := by
  induction cs with
  | nil => rfl
  | cons c cs ih => simp [anyTraverse, ih]

end Combinator
end ParserChain
