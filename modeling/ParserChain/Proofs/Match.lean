import ParserChain.Program.Run
import ParserChain.Proofs.Reader

/-! What a procedure does that matches a run of leaves at once: all patterns first, then all guards.
It goes on exactly where the leaves, read one by one, all match. -/
namespace ParserChain

namespace Shape

lemma bits_refine {s : Shape} (h : 0 < s.bits ∧ s.bits ≤ 64) (m : Modifier) :
    0 < (s.refine m).bits ∧ (s.refine m).bits ≤ 64 := by
  cases m with
  | size bits =>
    simp only [refine]
    omega
  | signed => exact h
  | unsigned => exact h
  | little => exact h
  | big => exact h
  | utf8 => exact h

lemma bits_ofModifiers (modifiers : List Modifier) :
    0 < (ofModifiers modifiers).bits ∧ (ofModifiers modifiers).bits ≤ 64 := by
  have h : ∀ s : Shape, 0 < s.bits ∧ s.bits ≤ 64 →
      0 < (modifiers.foldl refine s).bits ∧ (modifiers.foldl refine s).bits ≤ 64 := by
    induction modifiers with
    | nil => exact fun _ hs => hs
    | cons m ms ih => exact fun s hs => ih _ (bits_refine hs m)
  exact h {} (by decide)

/-- The shapes that modifiers give never fault. -/
lemma decode_ofModifiers (modifiers : List Modifier) (input : List UInt8) :
    ∃ unit, (ofModifiers modifiers).decode input = .ok unit := by
  obtain ⟨hpos, hle⟩ := bits_ofModifiers modifiers
  have hwide : ¬ 64 < (ofModifiers modifiers).bits := by omega
  have hzero : ¬ (ofModifiers modifiers).bits = 0 := by omega
  simp only [decode, fixedValue, if_neg hwide, if_neg hzero]
  split
  · exact ⟨_, rfl⟩
  · split
    · exact ⟨_, rfl⟩
    · split <;> exact ⟨_, rfl⟩

lemma isWord_bmod {n : Int} {k : Nat} (h : k ≤ 64) : IsWord (Int.bmod n (1 <<< k)) := by
  rw [Nat.one_shiftLeft]
  have hk : 2 ^ k ≤ 2 ^ 64 := Nat.pow_le_pow_right (by decide) h
  have hpos : 0 < 2 ^ k := Nat.two_pow_pos k
  have hlo := Int.le_bmod (x := n) hpos
  have hhi := Int.bmod_lt (x := n) hpos
  constructor <;> omega

/-- A captured value has 64 bits. -/
lemma isWord_of_decode {s : Shape} {input : List UInt8} {n : Int} {width : Nat}
    (h : s.decode input = .ok (some (n, width))) : IsWord n := by
  unfold decode fixedValue at h
  split at h
  · simp only [Except.ok.injEq, Option.map_eq_some_iff, Prod.mk.injEq] at h
    obtain ⟨c, -, rfl, -⟩ := h
    have hc : c.toNat < 2 ^ 32 := c.val.toNat_lt
    constructor <;> omega
  · split at h
    · simp at h
    · split at h
      · simp only [Except.map, Except.ok.injEq, Option.some_inj, Prod.mk.injEq] at h
        rw [← h.1]
        exact isWord_bmod (Nat.le_refl 64)
      · split at h
        · simp [Except.map] at h
        · split at h
          · simp [Except.map] at h
          · simp only [Except.map, Except.ok.injEq, Option.some_inj, Prod.mk.injEq] at h
            rw [← h.1]
            exact isWord_bmod (by omega)

end Shape

/-- All bound values have 64 bits. -/
def Bindings.Words (b : Bindings) : Prop := ∀ var n, b.value? var = some n → IsWord n

lemma Bindings.words_nil : Bindings.Words [] := by
  intro var n h
  simp [Bindings.value?] at h

lemma Bindings.Words.cons {b : Bindings} {n : Int} (hb : b.Words) (hn : IsWord n) (var : Nat) :
    Bindings.Words ((var, n) :: b) := by
  intro v m h
  by_cases hv : v = var
  · obtain rfl : n = m := by simpa [Bindings.value?, hv] using h
    exact hn
  · have hv' : (v == var) = false := by simpa using hv
    exact hb v m (by simpa [Bindings.value?, List.lookup_cons, hv'] using h)

namespace Leaf

/-- Takes all leaves without a look at their ranges. -/
def takeAll? : List Leaf → List UInt8 → Option (List Value × List UInt8)
  | [], input => some ([], input)
  | l :: ls, input =>
    match l.take? input with
    | none => none
    | some (v, rest) => (takeAll? ls rest).map fun (vs, rest) => (v :: vs, rest)

def acceptsAll (ls : List Leaf) (vs : List Value) : Bool :=
  (ls.zip vs).all fun (l, v) => l.accepts v

/-- The values of the leaves, all within their ranges, and what is behind them. -/
def match? (ls : List Leaf) (input : List UInt8) : Option (List Value × List UInt8) :=
  (takeAll? ls input).filter fun (vs, _) => acceptsAll ls vs

@[simp] lemma match?_nil (input : List UInt8) : match? [] input = some ([], input) := by
  simp [match?, takeAll?, acceptsAll]

lemma match?_cons (l : Leaf) (ls : List Leaf) (input : List UInt8) :
    match? (l :: ls) input = (l.take? input).bind fun (v, rest) =>
      if l.accepts v then (match? ls rest).map fun (vs, rest) => (v :: vs, rest) else none := by
  cases h : l.take? input with
  | none => simp [match?, takeAll?, h]
  | some taken =>
    obtain ⟨v, rest⟩ := taken
    cases ha : takeAll? ls rest with
    | none => simp [match?, takeAll?, h, ha]
    | some all =>
      obtain ⟨vs, behind⟩ := all
      have hcons : acceptsAll (l :: ls) (v :: vs) = (l.accepts v && acceptsAll ls vs) := rfl
      cases hv : l.accepts v <;> cases hvs : acceptsAll ls vs <;>
        simp [match?, takeAll?, h, ha, hcons, hv, hvs, Option.filter]

lemma length_of_match? {ls : List Leaf} {input rest : List UInt8} {vs : List Value}
    (h : match? ls input = some (vs, rest)) : vs.length = ls.length := by
  induction ls generalizing input vs with
  | nil =>
    obtain ⟨rfl, -⟩ : [] = vs ∧ input = rest := by simpa using h
    rfl
  | cons l ls ih =>
    rw [match?_cons, Option.bind_eq_some_iff] at h
    obtain ⟨⟨v, mid⟩, -, htail⟩ := h
    cases ha : l.accepts v with
    | false => simp [ha] at htail
    | true =>
      obtain ⟨ws, hws, rfl⟩ : ∃ ws, match? ls mid = some (ws, rest) ∧ v :: ws = vs := by
        simpa [ha] using htail
      simp [ih hws]

end Leaf

/-- Where a reader gets through, the leaves match and their deltas move the position. -/
lemma match?_of_scan_read {ls : List Leaf} {c next : Cursor} {vs : List Value}
    (h : scan ls c = .read vs next) :
    Leaf.match? ls c.rest = some (vs, next.rest) ∧
      (Movement.ofDeltas (ls.map Leaf.delta)).move? c.position = some next.position := by
  induction ls generalizing c vs with
  | nil =>
    obtain ⟨rfl, rfl⟩ : [] = vs ∧ c = next := by simpa [scan] using h
    exact ⟨Leaf.match?_nil _, Movement.move?_still _⟩
  | cons l ls ih =>
    rw [scan, Reading.andThen_eq_read] at h
    obtain ⟨v, mid, hl, htail⟩ := h
    obtain ⟨ws, hws, rfl⟩ := Reading.map_eq_read.mp htail
    obtain ⟨htake, haccepts, hmove, -⟩ := Leaf.read_eq_read hl
    obtain ⟨hmatch, hmoves⟩ := ih hws
    refine ⟨by simp [Leaf.match?_cons, htake, haccepts, hmatch], ?_⟩
    exact Movement.move?_ofDeltas_append (a := [l.delta]) (Leaf.move?_ofDeltas hmove) hmoves

/-- Where a reader stops in front of a leaf, the leaves do not match. -/
lemma match?_of_scan_failed {ls : List Leaf} {c place : Cursor} (h : scan ls c = .failed place) :
    Leaf.match? ls c.rest = none ∧ c.index ≤ place.index ∧
      place.index < c.index + ls.length := by
  induction ls generalizing c with
  | nil => simp [scan] at h
  | cons l ls ih =>
    rw [scan, Reading.andThen_eq_failed] at h
    rcases h with hl | ⟨v, mid, hl, htail⟩
    · obtain ⟨rfl, hrefuses⟩ := Leaf.read_eq_failed hl
      refine ⟨?_, Nat.le_refl _, by simp⟩
      rw [Leaf.match?_cons, Option.bind_eq_none_iff]
      rintro ⟨v, rest⟩ htake
      simp [hrefuses v rest htake]
    · obtain ⟨htake, haccepts, -, hindex⟩ := Leaf.read_eq_read hl
      obtain ⟨hmatch, hle, hlt⟩ := ih (Reading.map_eq_failed.mp htail)
      rw [hindex] at hle hlt
      rw [List.length_cons]
      exact ⟨by simp [Leaf.match?_cons, htake, haccepts, hmatch], by omega, by omega⟩

namespace Leaf

/-- What the pattern of a leaf binds. -/
def binding (var : Nat) : Leaf → Value → Bindings
  | unit .., .int n => [(var, n)]
  | _, _ => []

lemma take_pattern (var : Nat) (l : Leaf) (input : List UInt8) :
    (l.pattern var).take input =
      .ok ((l.take? input).map fun (v, rest) => (l.binding var v, rest)) := by
  cases l with
  | literal text =>
    cases h : (Utf8.bytes text).isPrefixOf? input <;>
      simp [pattern, Pattern.take, take?, binding, h]
  | unit ranges modifiers =>
    obtain ⟨unit, h⟩ := Shape.decode_ofModifiers modifiers input
    cases unit with
    | none => simp [pattern, Pattern.take, take?, h, Except.map]
    | some taken => simp [pattern, Pattern.take, take?, binding, h, Except.map]

/-- The binding of a leaf fits 64 bits, resolves its term, and leaves earlier variables alone. -/
lemma binding_of_take? (var : Nat) {l : Leaf} {input rest : List UInt8} {v : Value}
    (h : l.take? input = some (v, rest)) (bound : Bindings) :
    (bound.Words → Bindings.Words (l.binding var v ++ bound)) ∧
      (∀ b : Bindings,
        (∀ x < var + l.vars, b.value? x = Bindings.value? (l.binding var v ++ bound) x) →
        Term.resolve b.value? (l.term var) = some v) ∧
      ∀ x < var, Bindings.value? (l.binding var v ++ bound) x = bound.value? x := by
  cases l with
  | literal text =>
    obtain ⟨-, -, rfl, -⟩ : ∃ r, (Utf8.bytes text).isPrefixOf? input = some r ∧
        .str text = v ∧ r = rest := by simpa [take?] using h
    exact ⟨fun hb => hb, fun _ _ => rfl, fun _ _ => rfl⟩
  | unit ranges modifiers =>
    simp only [take?] at h
    split at h
    · rename_i n width hd
      obtain ⟨rfl, -⟩ : .int n = v ∧ input.drop width = rest := by simpa using h
      refine ⟨fun hb => hb.cons (Shape.isWord_of_decode hd) var, ?_, ?_⟩
      · intro b hb
        have hn : b.value? var = some n := by
          rw [hb var (Nat.lt_add_one var)]
          simp [binding, Bindings.value?]
        simp [term, Term.resolve, hn]
      · intro x hx
        have hne : (x == var) = false := by simpa using Nat.ne_of_lt hx
        simp [binding, Bindings.value?, List.lookup_cons, hne]
    · simp at h

lemma takeAll_patterns_of_none {ls : List Leaf} {input : List UInt8} (h : takeAll? ls input = none)
    (var : Nat) (bound : Bindings) : takeAll bound input (patterns var ls) = .ok none := by
  induction ls generalizing input var bound with
  | nil => simp [takeAll?] at h
  | cons l ls ih =>
    rw [patterns_cons, takeAll, take_pattern]
    cases ht : l.take? input with
    | none => rfl
    | some taken =>
      obtain ⟨v, rest⟩ := taken
      have hls : takeAll? ls rest = none := by simpa [takeAll?, ht] using h
      exact ih hls _ _

/-- The patterns of leaves bind captures under which the terms of the leaves have their values. -/
lemma takeAll_patterns_of_some {ls : List Leaf} {input rest : List UInt8} {vs : List Value}
    (h : takeAll? ls input = some (vs, rest)) (var : Nat) {bound : Bindings} (hb : bound.Words) :
    ∃ b : Bindings, takeAll bound input (patterns var ls) = .ok (some (b, rest)) ∧ b.Words ∧
      (∀ x < var, b.value? x = bound.value? x) ∧
      Term.resolveAll b.value? (terms var ls) = some vs := by
  induction ls generalizing input vs var bound with
  | nil =>
    obtain ⟨rfl, rfl⟩ : [] = vs ∧ input = rest := by simpa [takeAll?] using h
    exact ⟨bound, rfl, hb, fun _ _ => rfl, rfl⟩
  | cons l ls ih =>
    cases ht : l.take? input with
    | none => simp [takeAll?, ht] at h
    | some taken =>
      obtain ⟨v, mid⟩ := taken
      obtain ⟨ws, hws, rfl⟩ : ∃ ws, takeAll? ls mid = some (ws, rest) ∧ v :: ws = vs := by
        simpa [takeAll?, ht] using h
      obtain ⟨hwords, hterm, hkeep⟩ := binding_of_take? var ht bound
      obtain ⟨b, hall, hbw, hx, hres⟩ := ih hws (var + l.vars) (hwords hb)
      refine ⟨b, ?_, hbw, ?_, ?_⟩
      · rw [patterns_cons, takeAll, take_pattern, ht]
        exact hall
      · intro x hlt
        rw [hx x (by omega), hkeep x hlt]
      · have hv := hterm b hx
        simp [Term.resolveAll, hv, hres]

/-- The guard of a leaf tests its ranges, and there is none when every value will do. -/
lemma test_guard? {bound : Nat → Option Int} {l : Leaf} {var : Nat} {v : Value}
    (h : Term.resolve bound (l.term var) = some v) :
    (l.guard? var).all (Guard.test bound) = l.accepts v := by
  cases l with
  | literal text => rfl
  | unit ranges modifiers =>
    obtain ⟨n, hn, rfl⟩ : ∃ n, bound var = some n ∧ .int n = v := by
      simpa [term, Term.resolve] using h
    cases ranges with
    | nil => rfl
    | cons r rs =>
      obtain ⟨g, hg⟩ : ∃ g, Guard.anyOf? ((r :: rs).map (Guard.ofRange var)) = some g := by
        cases rs <;> exact ⟨_, rfl⟩
      have hrange (r : Range) : Guard.test bound (Guard.ofRange var r) = r.contains n :=
        Guard.test_ofRange r hn
      rw [guard?, hg, Option.all_some, Guard.test_anyOf? hg, List.any_map]
      simp [accepts, Function.comp_def, hrange]

/-- Under captures that give the leaves these values, their guards test the ranges. -/
lemma test_guards {bound : Nat → Option Int} {ls : List Leaf} {var : Nat} {vs : List Value}
    (h : Term.resolveAll bound (terms var ls) = some vs) :
    (guards var ls).all (Guard.test bound) = acceptsAll ls vs := by
  induction ls generalizing var vs with
  | nil => rfl
  | cons l ls ih =>
    obtain ⟨v, ws, hv, hws, rfl⟩ : ∃ v ws, Term.resolve bound (l.term var) = some v ∧
        Term.resolveAll bound (terms (var + l.vars) ls) = some ws ∧ vs = v :: ws := by
      rw [terms_cons, Term.resolveAll] at h
      split at h
      · rename_i v ws hv hws
        exact ⟨v, ws, hv, hws, by simpa using h.symm⟩
      · simp at h
    have hcons : acceptsAll (l :: ls) (v :: ws) = (l.accepts v && acceptsAll ls ws) := rfl
    rw [hcons, ← ih hws, ← test_guard? hv, guards_cons, List.all_append]
    cases l.guard? var <;> simp

end Leaf
end ParserChain
