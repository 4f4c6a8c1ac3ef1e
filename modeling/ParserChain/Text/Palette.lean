/-! Terminal colours for names, literal data and structural marks. -/
namespace ParserChain

structure Palette where
  name : String
  literal : String
  dim : String
  reset : String

namespace Palette

/-- No colours: every wrapped text stays as it is. -/
def plain : Palette := ⟨"", "", "", ""⟩

/-- Blue names, green literals, faint marks. -/
def ansi : Palette := ⟨"\x1b[34m", "\x1b[32m", "\x1b[2m", "\x1b[0m"⟩

def ofColored (colored : Bool) : Palette := if colored then ansi else plain

def isEnabled (p : Palette) : Bool := !p.name.isEmpty

def wrapName (p : Palette) (text : String) : String := p.name ++ text ++ p.reset
def wrapLiteral (p : Palette) (text : String) : String := p.literal ++ text ++ p.reset
def wrapDim (p : Palette) (text : String) : String := p.dim ++ text ++ p.reset

@[simp] theorem wrapName_plain (text : String) : plain.wrapName text = text := by
  simp [wrapName, plain]
@[simp] theorem wrapLiteral_plain (text : String) : plain.wrapLiteral text = text := by
  simp [wrapLiteral, plain]
@[simp] theorem wrapDim_plain (text : String) : plain.wrapDim text = text := by
  simp [wrapDim, plain]

end Palette
end ParserChain
