import ParserChain.Procedure

/-! Programs: procedures in order, and the entry from which a run starts with an empty accumulator
and an empty stack. -/
namespace ParserChain

structure Entry where
  target : Name
  start : Position
  deriving DecidableEq

structure Program where
  name : String
  entry : Entry
  procedures : List Procedure
  deriving BEq

namespace Program

/-- The first procedure of that name. -/
def get? (p : Program) (name : Name) : Option Procedure :=
  p.procedures.find? (·.name == name)

def names (p : Program) : List Name := p.procedures.map (·.name)

/-- The procedures that are not catch-alls. -/
def links (p : Program) : List Procedure := p.procedures.filter (!·.name.isCatchAll)

end Program
end ParserChain
