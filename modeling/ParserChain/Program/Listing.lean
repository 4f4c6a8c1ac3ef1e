import ParserChain.Program
import ParserChain.Text.Palette

/-! The listing of a program: one line for the entry, then two for each procedure, its head with
patterns, guard and fallback, and its body. -/
namespace ParserChain

def Pattern.listing (palette : Palette) : Pattern → String
  | .literal text => palette.wrapLiteral (quote text)
  | .capture var shape => "x" ++ var.repr ++ shape.text

/-- The patterns in front of the remaining input. -/
def listInput (palette : Palette) (input : List Pattern) : String :=
  if input.isEmpty then "rest"
  else "<<" ++ ", ".intercalate (input.map (Pattern.listing palette) ++ ["rest::binary"]) ++ ">>"

def StackPattern.listing : StackPattern → String
  | .any => "stack"
  | .saved => "[saved | stack]"

def AccUpdate.listing : AccUpdate → String
  | .keep => "acc"
  | .empty => "[]"
  | .prepend terms => "[" ++ ", ".intercalate (terms.map Term.text) ++ "] ++ acc"
  | .merge f => f.name ++ "(acc) ++ saved"

def StackUpdate.listing : StackUpdate → String
  | .keep => "stack"
  | .push => "[acc | stack]"
  | .pop => "stack"

def LineMove.listing : LineMove → String
  | .incoming => "line"
  | .advance n => "line + " ++ n.toNat.repr

def ColumnMove.listing : ColumnMove → String
  | .advance n => if n = 0 then "column" else "column + " ++ n.toNat.repr
  | .reset n => n.toNat.repr

def Body.listing (palette : Palette) : Body → String
  | .invoke target acc stack move =>
    palette.wrapName target.text ++ "(rest, " ++ acc.listing ++ ", " ++ stack.listing ++ ", " ++
      move.line.listing ++ ", " ++ move.column.listing ++ ")"
  | .ok => "ok(reverse(acc), rest, line, column)"
  | .error reason => "error(" ++ palette.wrapLiteral (quote reason) ++ ", rest, line, column)"

namespace Procedure

/-- The condition after the parameters. An empty test is not shown. -/
def listGuard (palette : Palette) (guard : Guard) : String :=
  if guard.isAlways then "" else " " ++ palette.wrapDim "when" ++ " " ++ guard.text

def listFallback (palette : Palette) : Option Name → String
  | none => ""
  | some name => " " ++ palette.wrapDim "else" ++ " " ++ palette.wrapName name.text

def listHead (palette : Palette) (p : Procedure) : String :=
  palette.wrapName p.name.text ++ "(" ++ listInput palette p.input ++ ", acc, " ++
    p.stack.listing ++ ", line, column)" ++ listGuard palette p.guard ++
    listFallback palette p.fallback

def listing (palette : Palette) (p : Procedure) : String :=
  p.listHead palette ++ "\n  " ++ palette.wrapDim "->" ++ " " ++ p.body.listing palette ++ "\n"

end Procedure

namespace Program

def listEntry (palette : Palette) (p : Program) : String :=
  "entry " ++ p.name ++ "(" ++ p.entry.start.line.toNat.repr ++ ", " ++
    p.entry.start.column.toNat.repr ++ ") " ++ palette.wrapDim "->" ++ " " ++
    palette.wrapName p.entry.target.text ++ "\n"

def listing (palette : Palette) (p : Program) : String :=
  p.listEntry palette ++ String.join (p.procedures.map (Procedure.listing palette))

end Program
end ParserChain
