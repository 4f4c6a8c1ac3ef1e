/-! Unsigned 32-bit counters for lines, columns and capture variables. There are two sums: one stays
at the largest counter, the other says when the sum does not fit. Both are read off `toNat`. -/
namespace ParserChain

abbrev Counter := UInt32

namespace Counter

def largest : Nat := 4294967295

/-- The counter nearest to `n`. -/
def cap (n : Nat) : Counter := UInt32.ofNat (min n largest)

def addCapped (a b : Counter) : Counter := cap (a.toNat + b.toNat)

def add? (a b : Counter) : Option Counter :=
  if a.toNat + b.toNat ≤ largest then some (cap (a.toNat + b.toNat)) else none

theorem toNat_le_largest (a : Counter) : a.toNat ≤ largest := by
  have h := a.toNat_lt
  simp only [largest]
  omega

@[simp] theorem toNat_cap (n : Nat) : (cap n).toNat = min n largest := by
  have h : min n largest < 4294967296 := by simp only [largest]; omega
  simpa [cap] using Nat.mod_eq_of_lt h

@[simp] theorem cap_toNat (a : Counter) : cap a.toNat = a := by
  apply UInt32.toNat_inj.1
  rw [toNat_cap, Nat.min_eq_left (toNat_le_largest a)]

@[simp] theorem toNat_addCapped (a b : Counter) :
    (addCapped a b).toNat = min (a.toNat + b.toNat) largest := toNat_cap _

theorem add?_eq_some {a b c : Counter} :
    add? a b = some c ↔ c.toNat = a.toNat + b.toNat := by
  have hc := toNat_le_largest c
  unfold add?
  split
  · rename_i h
    rw [Option.some_inj, ← UInt32.toNat_inj, toNat_cap, Nat.min_eq_left h]
    exact eq_comm
  · simp only [reduceCtorEq, false_iff]
    omega

theorem add?_eq_none {a b : Counter} : add? a b = none ↔ largest < a.toNat + b.toNat := by
  unfold add?
  split <;> simp <;> omega

example : addCapped 4294967295 1 = 4294967295 := by decide
example : add? 4294967295 1 = none := by decide

end Counter
end ParserChain
