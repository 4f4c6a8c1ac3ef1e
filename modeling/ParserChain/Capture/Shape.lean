/-! How a captured unit lies in the input: as one UTF-8 character, or as an integer of a fixed
number of bytes, signed or not, in either byte order. -/
namespace ParserChain

inductive Modifier
  | size (bits : Nat)
  | signed
  | unsigned
  | little
  | big
  | utf8
  deriving DecidableEq, Repr

structure Shape where
  bits : Nat := 8
  signed : Bool := false
  little : Bool := false
  utf8 : Bool := false
  deriving DecidableEq, Repr

namespace Shape

/-- A size is brought between 8 and 64 and cut to whole bytes. -/
def refine (s : Shape) : Modifier → Shape
  | .size bits => { s with bits := max 8 (min bits 64) / 8 * 8 }
  | .signed => { s with signed := true }
  | .unsigned => { s with signed := false }
  | .little => { s with little := true }
  | .big => { s with little := false }
  | .utf8 => { s with utf8 := true }

/-- Starts from a plain byte; later modifiers override earlier ones. -/
def ofModifiers (modifiers : List Modifier) : Shape := modifiers.foldl refine {}

/-- The number of bytes that a fixed-width unit takes. -/
def width (s : Shape) : Nat := s.bits / 8

def isDefault (s : Shape) : Bool := s == {}

/-- The parts of the suffix of a fixed-width unit. -/
def parts (s : Shape) : List String :=
  (if s.bits = 8 then [] else [s.bits.repr]) ++
    (if s.signed then ["signed"] else []) ++ (if s.little then ["little"] else [])

/-- The suffix of a capture: empty for a plain byte, else such as `::16-signed-little`. -/
def text (s : Shape) : String :=
  if s.utf8 then "::utf8"
  else if s.parts.isEmpty then ""
  else "::" ++ "-".intercalate s.parts

@[simp] theorem ofModifiers_nil : ofModifiers [] = {} := rfl

@[simp] theorem ofModifiers_append (ms ns : List Modifier) :
    ofModifiers (ms ++ ns) = ns.foldl refine (ofModifiers ms) := by
  simp [ofModifiers]

example : (ofModifiers [.size 20, .signed, .little]).text = "::16-signed-little" := by decide
example : (ofModifiers [.size 0]).bits = 8 ∧ (ofModifiers [.size 255]).bits = 64 := by decide

end Shape
end ParserChain
