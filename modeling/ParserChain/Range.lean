/-! Ranges of unit values. Both ends belong to a range, and they may be given in either order. -/
namespace ParserChain

structure Range where
  min : Int
  max : Int
  deriving DecidableEq, Repr

namespace Range

def exactly (value : Int) : Range := ⟨value, value⟩

/-- The ends in ascending order. -/
def ordered (r : Range) : Int × Int := if r.min > r.max then (r.max, r.min) else (r.min, r.max)

def contains (r : Range) (value : Int) : Bool :=
  r.ordered.1 ≤ value && value ≤ r.ordered.2

theorem ordered_eq (r : Range) : r.ordered = (Min.min r.min r.max, Max.max r.min r.max) := by
  unfold ordered
  split <;> simp <;> omega

theorem contains_iff {r : Range} {value : Int} :
    r.contains value = true ↔
      (r.min ≤ value ∧ value ≤ r.max) ∨ (r.max ≤ value ∧ value ≤ r.min) := by
  simp only [contains, ordered_eq, Bool.and_eq_true, decide_eq_true_eq]
  omega

/-- A printable ASCII code, space to tilde. -/
def isPrintable (value : Int) : Bool := 32 ≤ value && value ≤ 126

/-- Two printable ends are shown as characters, any others as numbers, in the order given. -/
def text (r : Range) : String :=
  if isPrintable r.min && isPrintable r.max then
    String.ofList ['\'', Char.ofNat r.min.toNat, '\'', '.', '.', '\'', Char.ofNat r.max.toNat, '\'']
  else r.min.repr ++ ".." ++ r.max.repr

example : (Range.mk 122 97).text = "'z'..'a'" := by decide
example : (Range.mk 31 97).text = "31..97" := by decide

end Range
end ParserChain
