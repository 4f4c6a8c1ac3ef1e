import ParserChain.Program

/-! Single edits of a program. Positions count from the front; an edit past the end of the
procedures changes nothing, and an insertion there goes to the end. -/
namespace ParserChain

inductive Edit
  | remove (index : Nat)
  | swap (first second : Nat)
  /-- Inserts a copy of the procedure at one index so that it stands at another. -/
  | copy (source index : Nat)
  | insert (index : Nat) (p : Procedure)
  | rename (index : Nat) (name : Name)
  | body (index : Nat) (body : Body)
  | fallback (index : Nat) (name : Option Name)
  /-- Sends an invocation elsewhere; other bodies stay. -/
  | target (index : Nat) (name : Name)
  | entry (name : Name)

/-- Exchanges the elements at two positions. -/
def exchange {α : Type} (xs : List α) (i j : Nat) : List α :=
  match xs[i]?, xs[j]? with
  | some x, some y => (xs.set i y).set j x
  | _, _ => xs

/-- Puts an element in front of the one at a position. -/
def insertAt {α : Type} (xs : List α) (i : Nat) (x : α) : List α := xs.take i ++ x :: xs.drop i

namespace Program

/-- Changes the list of procedures. -/
def withProcedures (p : Program) (f : List Procedure → List Procedure) : Program :=
  { p with procedures := f p.procedures }

def edit (p : Program) : Edit → Program
  | .remove i => p.withProcedures (·.eraseIdx i)
  | .swap i j => p.withProcedures (exchange · i j)
  | .copy i j =>
    match p.procedures[i]? with
    | none => p
    | some d => p.withProcedures (insertAt · j d)
  | .insert i d => p.withProcedures (insertAt · i d)
  | .rename i name => p.withProcedures (·.modify i fun d => { d with name := name })
  | .body i body => p.withProcedures (·.modify i fun d => { d with body := body })
  | .fallback i name => p.withProcedures (·.modify i fun d => { d with fallback := name })
  | .target i name =>
    p.withProcedures (·.modify i fun d => { d with body := d.body.retarget name })
  | .entry name => { p with entry := { p.entry with target := name } }

end Program
end ParserChain
