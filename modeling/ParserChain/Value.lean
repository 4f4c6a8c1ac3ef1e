import ParserChain.Text.Quoted

/-! Outputs of a chain. A value is what a run yields; a term is a value in which captures, numbered
per procedure, are still open. -/
namespace ParserChain

inductive Value
  | str (text : String)
  | int (value : Int)
  | list (items : List Value)

inductive Term
  | str (text : String)
  | int (value : Int)
  | capture (var : Nat)
  | list (items : List Term)

namespace Value

mutual
def decEq : (a b : Value) → Decidable (a = b)
  | .str s, .str t => decidable_of_iff (s = t) (by simp)
  | .int m, .int n => decidable_of_iff (m = n) (by simp)
  | .list vs, .list ws => @decidable_of_iff _ (vs = ws) (by simp) (decEqList vs ws)
  | .str _, .int _ | .str _, .list _ | .int _, .str _ | .int _, .list _ | .list _, .str _
  | .list _, .int _ => isFalse (by simp)

def decEqList : (as bs : List Value) → Decidable (as = bs)
  | [], [] => isTrue rfl
  | a :: as, b :: bs =>
    @decidable_of_iff _ (a = b ∧ as = bs) (by simp)
      (@instDecidableAnd _ _ (decEq a b) (decEqList as bs))
  | [], _ :: _ | _ :: _, [] => isFalse (by simp)
end

instance : DecidableEq Value := decEq

end Value

namespace Term

mutual
def decEq : (a b : Term) → Decidable (a = b)
  | .str s, .str t => decidable_of_iff (s = t) (by simp)
  | .int m, .int n => decidable_of_iff (m = n) (by simp)
  | .capture x, .capture y => decidable_of_iff (x = y) (by simp)
  | .list ts, .list us => @decidable_of_iff _ (ts = us) (by simp) (decEqList ts us)
  | .str _, .int _ | .str _, .capture _ | .str _, .list _ | .int _, .str _ | .int _, .capture _
  | .int _, .list _ | .capture _, .str _ | .capture _, .int _ | .capture _, .list _
  | .list _, .str _ | .list _, .int _ | .list _, .capture _ => isFalse (by simp)

def decEqList : (as bs : List Term) → Decidable (as = bs)
  | [], [] => isTrue rfl
  | a :: as, b :: bs =>
    @decidable_of_iff _ (a = b ∧ as = bs) (by simp)
      (@instDecidableAnd _ _ (decEq a b) (decEqList as bs))
  | [], _ :: _ | _ :: _, [] => isFalse (by simp)
end

instance : DecidableEq Term := decEq

mutual
/-- The value of a term whose captures are all bound. -/
def resolve (bound : Nat → Option Int) : Term → Option Value
  | .str s => some (.str s)
  | .int n => some (.int n)
  | .capture var => (bound var).map .int
  | .list items => (resolveAll bound items).map .list

def resolveAll (bound : Nat → Option Int) : List Term → Option (List Value)
  | [] => some []
  | t :: ts =>
    match resolve bound t, resolveAll bound ts with
    | some v, some vs => some (v :: vs)
    | _, _ => none
end

mutual
/-- The variables a term mentions, from left to right. -/
def captures : Term → List Nat
  | .str _ => []
  | .int _ => []
  | .capture var => [var]
  | .list items => capturesAll items

def capturesAll : List Term → List Nat
  | [] => []
  | t :: ts => captures t ++ capturesAll ts
end

mutual
def text : Term → String
  | .str s => quote s
  | .int n => n.repr
  | .capture var => "x" ++ var.repr
  | .list items => "[" ++ ", ".intercalate (texts items) ++ "]"

def texts : List Term → List String
  | [] => []
  | t :: ts => text t :: texts ts
end

theorem texts_eq_map (ts : List Term) : texts ts = ts.map text := by
  induction ts with
  | nil => rfl
  | cons t ts ih => simp [texts, ih]

theorem capturesAll_eq_flatMap (ts : List Term) : capturesAll ts = ts.flatMap captures := by
  induction ts with
  | nil => rfl
  | cons t ts ih => simp [capturesAll, ih]

theorem resolveAll_append (bound : Nat → Option Int) (ts us : List Term) :
    resolveAll bound (ts ++ us) =
      (resolveAll bound ts).bind fun vs => (resolveAll bound us).map (vs ++ ·) := by
  induction ts with
  | nil => cases h : resolveAll bound us <;> simp [resolveAll, h]
  | cons t ts ih =>
    simp only [List.cons_append, resolveAll, ih]
    cases resolve bound t <;> cases resolveAll bound ts <;> cases resolveAll bound us <;> simp

example : (list [.str "a", .capture 3, .int (-1)]).text = "[\"a\", x3, -1]" := by decide +kernel

end Term
end ParserChain
