import ParserChain.Capture.Shape
import ParserChain.Fault
import ParserChain.Text.Utf8

/-! Reading one captured unit from the front of the input. A fixed-width unit is a number in base
256; its value is the balanced residue of that number modulo a power of two. -/
namespace ParserChain

/-- The number written by the bytes in base 256, the first byte counting most. -/
def bigEndian (input : List UInt8) : Nat := input.foldl (fun n b => 256 * n + b.toNat) 0

@[simp] theorem bigEndian_nil : bigEndian [] = 0 := rfl

theorem bigEndian_append_singleton (input : List UInt8) (b : UInt8) :
    bigEndian (input ++ [b]) = 256 * bigEndian input + b.toNat := by
  simp [bigEndian]

namespace Shape

/-- The number that the bytes of a unit write in the byte order of the shape. -/
def number (s : Shape) (unit : List UInt8) : Nat :=
  bigEndian (if s.little then unit.reverse else unit)

/-- The value of a unit of fixed width. Values have 64 bits, so an unsigned one wraps there. -/
def fixedValue (s : Shape) (unit : List UInt8) : Except Fault Int :=
  if !s.signed then .ok (Int.bmod (s.number unit) (1 <<< 64))
  else if 64 < s.bits then .error .widthAbove64
  else if s.bits = 0 then .error .widthZero
  else .ok (Int.bmod (s.number unit) (1 <<< s.bits))

/-- The unit at the front of the input and the number of bytes it takes, if there is one. -/
def decode (s : Shape) (input : List UInt8) : Except Fault (Option (Int × Nat)) :=
  if s.utf8 then
    .ok ((Utf8.read? input).map fun c => ((c.toNat : Int), c.utf8Size))
  else if input.length < s.width then .ok none
  else (s.fixedValue (input.take s.width)).map fun value => some (value, s.width)

example : (ofModifiers [.size 16, .signed]).decode [255, 254, 7] = .ok (some (-2, 2)) := by cbv
example : (ofModifiers [.size 16, .little]).decode [1, 2] = .ok (some (513, 2)) := by cbv
example : (ofModifiers [.size 64]).decode (List.replicate 8 255) = .ok (some (-1, 8)) := by cbv
example : (ofModifiers [.size 16]).decode [1] = .ok none := by cbv

end Shape
end ParserChain
