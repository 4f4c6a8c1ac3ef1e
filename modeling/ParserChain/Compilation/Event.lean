import ParserChain.Procedure
import ParserChain.Text.Palette

/-! Events of a compilation, in the order in which they happen, and the lines that tell them. -/
namespace ParserChain

inductive Event
  /-- A run of steps was fused into the link of that name. -/
  | segment (name : Name) (consumed inputs guards outputs : Nat) (catchAll : Bool)
  /-- A label gave up its scope; its inner steps take its place. -/
  | unwrap (label : String) (inner : Nat)
  /-- A traverse begins at the link of that name. -/
  | unbound (name : Name) (kind : String)
  | procedure (p : Procedure)

namespace Event

/-- What a procedure does, in a word or by its target. -/
def bodyText : Body → String
  | .invoke target .. => "-> " ++ target.text
  | .ok => "ok"
  | .error _ => "error"

def line (palette : Palette) : Event → String
  | .segment name consumed inputs guards outputs catchAll =>
    "segment " ++ palette.wrapName name.text ++ " " ++
      palette.wrapDim ("combinators=" ++ consumed.repr ++ " inputs=" ++ inputs.repr ++ " guards=" ++
        guards.repr ++ " outputs=" ++ outputs.repr ++ if catchAll then " +catch-all" else "")
  | .unwrap label inner =>
    "unwrap  " ++ palette.wrapLiteral (quote label) ++ " " ++
      palette.wrapDim ("inner=" ++ inner.repr)
  | .unbound name kind => "unbound " ++ palette.wrapName name.text ++ " " ++ palette.wrapDim kind
  | .procedure p =>
    "emit    " ++ palette.wrapName p.name.text ++ " " ++ palette.wrapDim (bodyText p.body)

def procedure? : Event → Option Procedure
  | .procedure p => some p
  | _ => none

/-- The lines of the events, each ended by a line break. -/
def output (lines : List String) : String := String.join (lines.map (· ++ "\n"))

end Event
end ParserChain
