import ParserChain.Name

/-! Reasons why an evaluation cannot go on. They are distinct from a failed match, which is an
outcome of its own. -/
namespace ParserChain

inductive Fault
  /-- A counter went past its largest value. -/
  | counterOverflow
  /-- A signed unit is wider than 64 bits. -/
  | widthAbove64
  /-- A signed unit has no bits. -/
  | widthZero
  /-- An output mentions a capture that the input patterns do not bind. -/
  | unboundCapture
  /-- A frame is merged that no stack pattern has taken. -/
  | noSavedFrame
  | undefinedProcedure (name : Name)
  /-- A procedure did not match and has nowhere to go. -/
  | refused (name : Name)
  deriving DecidableEq, Repr

def Fault.message : Fault → String
  | .counterOverflow => "attempt to add with overflow"
  | .widthAbove64 => "attempt to subtract with overflow"
  | .widthZero => "attempt to shift left with overflow"
  | .unboundCapture => "unbound capture in output"
  | .noSavedFrame => "merge without saved frame"
  | .undefinedProcedure name => "undefined procedure " ++ name.text
  | .refused name => name.text ++ " refused its input and has no fallback"

end ParserChain
