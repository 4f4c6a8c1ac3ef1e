import ParserChain.Program

/-! The shape of a chain, and the first way in which a program departs from it. Names are unique,
every call goes forward to a link, a link has at most two callers, a catch-all backs exactly one
procedure, and the one success is the last procedure. -/
namespace ParserChain

inductive Flaw
  | definedTwice (name : Name)
  | entryNotFirst (target : Name)
  | successes (count : Nat)
  | successNotLast
  | undefinedTarget (source target : Name)
  | backwards (source target : Name)
  | callsCatchAll (source target : Name)
  | badFallback (source fallback : Name)
  | predecessors (name : Name) (count : Nat)
  | unownedCatchAll (name : Name)
  deriving DecidableEq

/-- A name between backquotes. -/
def Name.ticked (n : Name) : String := "\x60" ++ n.text ++ "\x60"

def Flaw.message : Flaw → String
  | .definedTwice name => name.ticked ++ " is defined twice"
  | .entryNotFirst target => "entry " ++ target.ticked ++ " is not the first procedure"
  | .successes count => "expected one success procedure, found " ++ count.repr
  | .successNotLast => "success procedure is not last"
  | .undefinedTarget source target => source.ticked ++ " invokes undefined " ++ target.ticked
  | .backwards source target => source.ticked ++ " invokes " ++ target.ticked ++ " backwards"
  | .callsCatchAll source target => source.ticked ++ " invokes catch-all " ++ target.ticked
  | .badFallback source fallback => source.ticked ++ " falls back to " ++ fallback.ticked
  | .predecessors name count => name.ticked ++ " has " ++ count.repr ++ " predecessors"
  | .unownedCatchAll name => "catch-all " ++ name.ticked ++ " must back exactly one procedure"

/-- The first element that has occurred before, given what has been seen. -/
def firstRepeat? {α : Type} [DecidableEq α] (seen : List α) : List α → Option α
  | [] => none
  | x :: xs => if x ∈ seen then some x else firstRepeat? (x :: seen) xs

theorem firstRepeat?_eq_none {α : Type} [DecidableEq α] (seen xs : List α) :
    firstRepeat? seen xs = none ↔ xs.Nodup ∧ ∀ x ∈ xs, x ∉ seen := by
  induction xs generalizing seen with
  | nil => simp [firstRepeat?]
  | cons x xs ih =>
    by_cases hx : x ∈ seen
    · simp [firstRepeat?, hx]
    · rw [firstRepeat?, if_neg hx, ih]
      simp only [List.mem_cons, not_or, List.nodup_cons, forall_eq_or_imp]
      grind

namespace Program

/-- Targets of all invocations, in order of the procedures. -/
def targets (p : Program) : List Name := p.procedures.filterMap (·.body.target?)

def fallbacks (p : Program) : List Name := p.procedures.filterMap (·.fallback)

def entryFlaw? (p : Program) : Option Flaw :=
  if p.names.head? = some p.entry.target then none else some (.entryNotFirst p.entry.target)

def successFlaw? (p : Program) : Option Flaw :=
  let count := p.procedures.countP (·.body.isOk)
  if count ≠ 1 then some (.successes count)
  else if p.procedures.getLast?.any (·.body.isOk) then none
  else some .successNotLast

/-- What is wrong with an invocation in the procedure at a position. -/
def targetFlaw? (names : List Name) (position : Nat) (source target : Name) : Option Flaw :=
  match names.idxOf? target with
  | none => some (.undefinedTarget source target)
  | some found =>
    if found ≤ position then some (.backwards source target)
    else if target.isCatchAll then some (.callsCatchAll source target)
    else none

def fallbackFlaw? (names : List Name) (source fallback : Name) : Option Flaw :=
  if fallback.isCatchAll && names.contains fallback then none
  else some (.badFallback source fallback)

/-- What is wrong with the names a procedure mentions, its target before its fallback. -/
def linkFlaw? (names : List Name) (position : Nat) (d : Procedure) : Option Flaw :=
  (d.body.target?.bind (targetFlaw? names position d.name)).or
    (d.fallback.bind (fallbackFlaw? names d.name))

def maxPredecessors : Nat := 2

def crowdFlaw? (p : Program) : Option Flaw :=
  (p.targets.find? fun name => maxPredecessors < p.targets.count name).map fun name =>
    .predecessors name (p.targets.count name)

def catchAllFlaw? (p : Program) : Option Flaw :=
  (p.names.find? fun name => name.isCatchAll && p.fallbacks.count name ≠ 1).map .unownedCatchAll

/-- The first departure from the shape of a chain. -/
def flaw? (p : Program) : Option Flaw :=
  ((firstRepeat? [] p.names).map .definedTwice).or <|
  p.entryFlaw?.or <|
  p.successFlaw?.or <|
  (p.procedures.zipIdx.findSome? fun (d, position) => linkFlaw? p.names position d).or <|
  p.crowdFlaw?.or p.catchAllFlaw?

end Program
end ParserChain
