/-! Names of procedures. A link is named by its base and its step; its catch-all has the same base
and step under a mark of its own. Names are ordered by base, step and role. -/
namespace ParserChain

inductive Role
  | link
  | catchAll
  deriving DecidableEq, Repr

structure Name where
  base : String
  step : Nat
  role : Role
  deriving DecidableEq, Repr

namespace Name

def link (base : String) (step : Nat) : Name := ⟨base, step, .link⟩

/-- The catch-all that a link owns. -/
def catchAll (n : Name) : Name := { n with role := .catchAll }

def isCatchAll (n : Name) : Bool := n.role == .catchAll

def text (n : Name) : String :=
  match n.role with
  | .link => n.base ++ "__" ++ n.step.repr
  | .catchAll => n.base ++ "__" ++ n.step.repr ++ "__error"

@[simp] theorem isCatchAll_link (base : String) (step : Nat) :
    (link base step).isCatchAll = false := rfl
@[simp] theorem isCatchAll_catchAll (n : Name) : n.catchAll.isCatchAll = true := by
  simp [isCatchAll, catchAll]

/-- Strict order: by base, then by step, a link before its catch-all. -/
def lt (m n : Name) : Bool :=
  m.base < n.base ||
    (m.base == n.base && (m.step < n.step ||
      (m.step == n.step && m.role == .link && n.role == .catchAll)))

/-- Names in ascending order, each written once. -/
def sorted (names : List Name) : List Name :=
  (names.mergeSort fun m n => !n.lt m).eraseReps

example : (link "p" 3).catchAll.text = "p__3__error" := by decide
example : (link "p" 2).lt (link "p" 10) = true := by decide
example : (link "p" 2).lt (link "p" 2).catchAll = true := by decide

end Name
end ParserChain
