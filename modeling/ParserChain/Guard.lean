import ParserChain.Range

/-! Tests over the captures that the input patterns of a procedure bind. -/
namespace ParserChain

inductive Guard
  | always
  | eq (var : Nat) (value : Int)
  | between (var : Nat) (min max : Int)
  | any (guards : List Guard)
  | all (guards : List Guard)

namespace Guard

mutual
def decEq : (a b : Guard) → Decidable (a = b)
  | .always, .always => isTrue rfl
  | .eq x m, .eq y n => decidable_of_iff (x = y ∧ m = n) (by simp)
  | .between x k l, .between y m n => decidable_of_iff (x = y ∧ k = m ∧ l = n) (by simp)
  | .any gs, .any hs => @decidable_of_iff _ (gs = hs) (by simp) (decEqList gs hs)
  | .all gs, .all hs => @decidable_of_iff _ (gs = hs) (by simp) (decEqList gs hs)
  | .always, .eq .. | .always, .between .. | .always, .any _ | .always, .all _
  | .eq .., .always | .eq .., .between .. | .eq .., .any _ | .eq .., .all _
  | .between .., .always | .between .., .eq .. | .between .., .any _ | .between .., .all _
  | .any _, .always | .any _, .eq .. | .any _, .between .. | .any _, .all _
  | .all _, .always | .all _, .eq .. | .all _, .between .. | .all _, .any _ => isFalse (by simp)

def decEqList : (as bs : List Guard) → Decidable (as = bs)
  | [], [] => isTrue rfl
  | a :: as, b :: bs =>
    @decidable_of_iff _ (a = b ∧ as = bs) (by simp)
      (@instDecidableAnd _ _ (decEq a b) (decEqList as bs))
  | [], _ :: _ | _ :: _, [] => isFalse (by simp)
end

instance : DecidableEq Guard := decEq

/-- The variable lies in the range: one value is tested for equality. -/
def ofRange (var : Nat) (range : Range) : Guard :=
  if range.ordered.1 = range.ordered.2 then .eq var range.ordered.1
  else .between var range.ordered.1 range.ordered.2

/-- One of the guards holds. There is no such guard when there is nothing to test. -/
def anyOf? : List Guard → Option Guard
  | [] => none
  | [g] => some g
  | gs => some (.any gs)

/-- All of the guards hold. -/
def allOf : List Guard → Guard
  | [] => .always
  | [g] => g
  | gs => .all gs

def isAlways (g : Guard) : Bool := g = .always

mutual
/-- A test of an unbound variable fails. -/
def test (bound : Nat → Option Int) : Guard → Bool
  | .always => true
  | .eq var value => bound var == some value
  | .between var min max =>
    match bound var with
    | none => false
    | some v => min ≤ v && v ≤ max
  | .any guards => testAny bound guards
  | .all guards => testAll bound guards

def testAny (bound : Nat → Option Int) : List Guard → Bool
  | [] => false
  | g :: gs => test bound g || testAny bound gs

def testAll (bound : Nat → Option Int) : List Guard → Bool
  | [] => true
  | g :: gs => test bound g && testAll bound gs
end

mutual
def text : Guard → String
  | .always => "true"
  | .eq var value => "x" ++ var.repr ++ " == " ++ value.repr
  | .between var min max => min.repr ++ " <= x" ++ var.repr ++ " <= " ++ max.repr
  | .any guards => "(" ++ " or ".intercalate (texts guards) ++ ")"
  | .all guards => " and ".intercalate (texts guards)

def texts : List Guard → List String
  | [] => []
  | g :: gs => text g :: texts gs
end

mutual
/-- The variables a guard mentions, from left to right. -/
def vars : Guard → List Nat
  | .always => []
  | .eq var _ => [var]
  | .between var _ _ => [var]
  | .any guards => varsAll guards
  | .all guards => varsAll guards

def varsAll : List Guard → List Nat
  | [] => []
  | g :: gs => vars g ++ varsAll gs
end

theorem texts_eq_map (gs : List Guard) : texts gs = gs.map text := by
  induction gs with
  | nil => rfl
  | cons g gs ih => simp [texts, ih]

theorem testAny_eq_any (bound : Nat → Option Int) (gs : List Guard) :
    testAny bound gs = gs.any (test bound) := by
  induction gs with
  | nil => rfl
  | cons g gs ih => simp [testAny, ih]

theorem testAll_eq_all (bound : Nat → Option Int) (gs : List Guard) :
    testAll bound gs = gs.all (test bound) := by
  induction gs with
  | nil => rfl
  | cons g gs ih => simp [testAll, ih]

@[simp] theorem test_allOf (bound : Nat → Option Int) (gs : List Guard) :
    (allOf gs).test bound = gs.all (test bound) := by
  match gs with
  | [] => rfl
  | [g] => simp [allOf]
  | g :: h :: gs => simp [allOf, test, testAll_eq_all]

theorem test_anyOf? {bound : Nat → Option Int} {gs : List Guard} {g : Guard}
    (h : anyOf? gs = some g) : g.test bound = gs.any (test bound) := by
  match gs with
  | [] => simp [anyOf?] at h
  | [k] => simp_all [anyOf?]
  | k :: l :: gs =>
    obtain rfl : Guard.any (k :: l :: gs) = g := by simpa [anyOf?] using h
    simp [test, testAny_eq_any]

/-- A range guard tests membership in the range. -/
theorem test_ofRange {bound : Nat → Option Int} {var : Nat} {value : Int} (range : Range)
    (h : bound var = some value) : (ofRange var range).test bound = range.contains value := by
  unfold ofRange Range.contains
  split
  · rename_i he
    rw [← he, Bool.eq_iff_iff]
    simp only [test, h, beq_iff_eq, Option.some_inj, Bool.and_eq_true, decide_eq_true_eq]
    omega
  · simp [test, h]

end Guard
end ParserChain
