import Mathlib.Data.List.Nodup
import ParserChain.Proofs.Match

/-! Captures of a segment. They are numbered in a row, one for each unit that the segment reads, so
no capture overwrites another; a guard tests the one unit it belongs to, and outputs mention only
what the segment itself has captured. Steps behind the segment leave no trace in the numbers. -/
namespace ParserChain

/-- The variable that a pattern binds, and how its unit is read. -/
def Pattern.capture? : Pattern → Option (Nat × Shape)
  | .literal _ => none
  | .capture var shape => some (var, shape)

/-- The guard mentions this variable and no other, and tests whether its value lies in one of the
ranges. -/
def Guard.Tests (g : Guard) (var : Nat) (ranges : List Range) : Prop :=
  (∀ x, x ∈ g.vars ↔ x = var) ∧ ∀ (bound : Nat → Option Int) (v : Int), bound var = some v →
    (g.test bound = true ↔
      ∃ r ∈ ranges, (r.min ≤ v ∧ v ≤ r.max) ∨ (r.max ≤ v ∧ v ≤ r.min))

namespace Guard

lemma vars_ofRange (var : Nat) (range : Range) : (ofRange var range).vars = [var] := by
  unfold ofRange
  split <;> rfl

lemma varsAll_map_ofRange (var : Nat) (ranges : List Range) :
    varsAll (ranges.map (ofRange var)) = ranges.map fun _ => var := by
  induction ranges with
  | nil => rfl
  | cons r rs ih => simp [varsAll, vars_ofRange, ih]

lemma vars_anyOf? {gs : List Guard} {g : Guard} (h : anyOf? gs = some g) :
    g.vars = varsAll gs := by
  match gs with
  | [] => simp [anyOf?] at h
  | [k] =>
    obtain rfl : k = g := by simpa [anyOf?] using h
    simp [varsAll]
  | k :: l :: gs =>
    obtain rfl : Guard.any (k :: l :: gs) = g := by simpa [anyOf?] using h
    rfl

/-- The guard of a unit, which is there as soon as the unit has ranges. -/
lemma exists_tests {ranges : List Range} (hne : ranges ≠ []) (var : Nat) :
    ∃ g, anyOf? (ranges.map (ofRange var)) = some g ∧ g.Tests var ranges := by
  obtain ⟨r, rs, rfl⟩ := List.exists_cons_of_ne_nil hne
  obtain ⟨g, hg⟩ : ∃ g, anyOf? ((r :: rs).map (ofRange var)) = some g := by
    cases rs <;> exact ⟨_, rfl⟩
  refine ⟨g, hg, ?_, ?_⟩
  · intro x
    rw [vars_anyOf? hg, varsAll_map_ofRange]
    simp
  · intro bound v hv
    have hrange (range : Range) : (ofRange var range).test bound = range.contains v :=
      test_ofRange range hv
    rw [test_anyOf? hg, List.any_map, List.any_eq_true]
    simp only [Function.comp_apply, hrange, Range.contains_iff]

end Guard

namespace Leaf

def unit? : Leaf → Option (List Range × List Modifier)
  | literal _ => none
  | unit ranges modifiers => some (ranges, modifiers)

/-- The units among leaves, with their ranges and modifiers. -/
def units (ls : List Leaf) : List (List Range × List Modifier) := ls.filterMap unit?

@[simp] lemma units_literal (text : String) (ls : List Leaf) :
    units (literal text :: ls) = units ls := rfl

@[simp] lemma units_unit (ranges : List Range) (modifiers : List Modifier) (ls : List Leaf) :
    units (unit ranges modifiers :: ls) = (ranges, modifiers) :: units ls := rfl

lemma varsAll_eq_length_units (ls : List Leaf) : varsAll ls = (units ls).length := by
  induction ls with
  | nil => rfl
  | cons l ls ih => cases l <;> simp [varsAll, vars, ih, Nat.add_comm]

/-- The patterns of leaves bind variables in a row, one for each unit. -/
lemma captures_patterns (var : Nat) (ls : List Leaf) :
    (patterns var ls).filterMap Pattern.capture? =
      (List.range' var (units ls).length).zip
        ((units ls).map fun u => Shape.ofModifiers u.2) := by
  induction ls generalizing var with
  | nil => rfl
  | cons l ls ih =>
    cases l with
    | literal text => simpa [pattern, Pattern.capture?, vars, List.filterMap_cons] using ih var
    | unit ranges modifiers =>
      simpa [pattern, Pattern.capture?, vars, List.range'_succ] using ih (var + 1)

lemma capturesAll_terms (var : Nat) (ls : List Leaf) :
    Term.capturesAll (terms var ls) = List.range' var (units ls).length := by
  induction ls generalizing var with
  | nil => rfl
  | cons l ls ih =>
    cases l with
    | literal text => simpa [term, Term.capturesAll, Term.captures, vars] using ih var
    | unit ranges modifiers =>
      simpa [term, Term.capturesAll, Term.captures, vars, List.range'_succ] using ih (var + 1)

/-- The guards of leaves are those of the units that have ranges, in order. -/
lemma forall₂_guards (var : Nat) (ls : List Leaf) :
    List.Forall₂ (fun (u : (List Range × List Modifier) × Nat) g => g.Tests u.2 u.1.1)
      (((units ls).zipIdx var).filter fun u => !u.1.1.isEmpty) (guards var ls) := by
  induction ls generalizing var with
  | nil => exact .nil
  | cons l ls ih =>
    rw [guards_cons]
    cases l with
    | literal text => simpa [guard?, vars] using ih var
    | unit ranges modifiers =>
      have htail := ih (var + 1)
      cases ranges with
      | nil => simpa [guard?, Guard.anyOf?, vars] using htail
      | cons r rs =>
        obtain ⟨g, hg, htests⟩ := Guard.exists_tests (List.cons_ne_nil r rs) var
        rw [guard?, hg]
        exact .cons htests htail

/-- Matching the patterns of leaves binds their variables one after another. -/
lemma keys_of_takeAll {ls : List Leaf} {var : Nat} {input rest : List UInt8}
    {first bound : Bindings} (h : takeAll first input (patterns var ls) = .ok (some (bound, rest))) :
    bound.map Prod.fst = (List.range' var (units ls).length).reverse ++ first.map Prod.fst := by
  induction ls generalizing var input first with
  | nil =>
    obtain ⟨rfl, -⟩ : first = bound ∧ input = rest := by simpa [takeAll, patterns, numbered] using h
    rfl
  | cons l ls ih =>
    rw [patterns_cons, takeAll, take_pattern] at h
    cases ht : l.take? input with
    | none => simp [ht] at h
    | some taken =>
      obtain ⟨v, mid⟩ := taken
      have hls : takeAll (l.binding var v ++ first) mid (patterns (var + l.vars) ls) =
          .ok (some (bound, rest)) := by simpa [ht] using h
      have hkeys := ih hls
      cases l with
      | literal text => simpa [binding, vars] using hkeys
      | unit ranges modifiers =>
        obtain ⟨n, rfl⟩ : ∃ n, v = .int n := by
          simp only [take?] at ht
          split at ht
          · rename_i n width _
            exact ⟨n, (by simpa using ht : Value.int n = v ∧ _).1.symm⟩
          · simp at ht
        simpa [binding, vars, List.range'_succ] using hkeys

/-- The patterns of leaves never fault. -/
lemma exists_takeAll_patterns (ls : List Leaf) (var : Nat) (input : List UInt8) :
    ∃ result, takeAll [] input (patterns var ls) = .ok result := by
  cases h : takeAll? ls input with
  | none => exact ⟨none, takeAll_patterns_of_none h var []⟩
  | some taken =>
    obtain ⟨vs, rest⟩ := taken
    obtain ⟨b, hb, -⟩ := takeAll_patterns_of_some h var Bindings.words_nil
    exact ⟨_, hb⟩

end Leaf

lemma Bindings.isSome_value? {b : Bindings} {var : Nat} :
    (b.value? var).isSome ↔ var ∈ b.map Prod.fst := by
  simp [Bindings.value?]

namespace Segment
variable {s : Segment} {seed : Nat} {ls : List Leaf}

lemma Reads.nextVar_eq (h : s.Reads seed ls) : s.nextVar = seed + (Leaf.units ls).length := by
  rw [h.nextVar, Leaf.varsAll_eq_length_units]

/-- What a segment matches binds its variables, each once. -/
lemma Reads.keys_eq (h : s.Reads seed ls) {input rest : List UInt8} {bound : Bindings}
    (hmatch : takeAll [] input s.inputs = .ok (some (bound, rest))) :
    bound.map Prod.fst = (List.range' seed (Leaf.units ls).length).reverse := by
  rw [h.inputs] at hmatch
  simpa using Leaf.keys_of_takeAll hmatch

/-- Outputs mention only variables of the segment, if the rewrites mention what they are given. -/
lemma mem_captures_outputs {run : List Combinator}
    (hgiven : ∀ f ∈ Combinator.rewritesAll run, f.EmitsGiven)
    (hrun : Combinator.anyTraverse run = false) {x : Nat}
    (hx : x ∈ Term.capturesAll (fuse seed run).outputs) :
    x ∈ List.range' seed (Leaf.units (Combinator.leavesAll run)).length := by
  rw [← Leaf.capturesAll_terms]
  refine captures_fuse seed run hgiven hrun ?_
  rw [Term.capturesAll_eq_flatMap, List.mem_flatMap] at hx ⊢
  simpa [matched] using hx

/-- Behind a match of the segment every one of its outputs has a value. -/
lemma isSome_resolve_outputs {run : List Combinator}
    (hgiven : ∀ f ∈ Combinator.rewritesAll run, f.EmitsGiven)
    (hrun : Combinator.anyTraverse run = false) {input rest : List UInt8} {bound : Bindings}
    (hmatch : takeAll [] input (fuse seed run).inputs = .ok (some (bound, rest))) {t : Term}
    (ht : t ∈ (fuse seed run).outputs) : (t.resolve bound.value?).isSome := by
  rw [Term.isSome_resolve]
  intro x hx
  have hmem : x ∈ Term.capturesAll (fuse seed run).outputs := by
    rw [Term.capturesAll_eq_flatMap, List.mem_flatMap]
    exact ⟨t, ht, hx⟩
  rw [Bindings.isSome_value?, (reads_fuse seed run hrun).keys_eq hmatch, List.mem_reverse]
  exact mem_captures_outputs hgiven hrun hmem

open Combinator in
/-- A segment numbers its units in a row from the seed. It has one guard for each unit with ranges,
in order, and its outputs mention only its own captures, if the rewrites mention only what they are
given. So no match overwrites a capture, and every output has a value. A step with a traverse
behind the segment changes nothing, whatever it begins with. -/
theorem capture_hygiene :
    (∀ (seed : Counter) (steps : List Combinator),
      seed.toNat + Leaf.varsAll (leavesAll steps) < 4294967296 →
      ∃ (s : Segment) (units : List (List Range × List Modifier)),
        extract seed steps = .ok s ∧ units = Leaf.units (leavesAll (steps.take s.consumed)) ∧
        s.nextVar = seed.toNat + units.length ∧
        s.inputs.filterMap Pattern.capture? = (List.range' seed.toNat units.length).zip
          (units.map fun u => Shape.ofModifiers u.2) ∧
        ((s.inputs.filterMap Pattern.capture?).map Prod.fst).Nodup ∧
        List.Forall₂ (fun (u : (List Range × List Modifier) × Nat) g => g.Tests u.2 u.1.1)
          ((units.zipIdx seed.toNat).filter fun u => !u.1.1.isEmpty) s.guards ∧
        ((∀ f ∈ rewritesAll steps, f.EmitsGiven) →
          ∀ x ∈ Term.capturesAll s.outputs, seed.toNat ≤ x ∧ x < s.nextVar) ∧
        ∀ input, ∃ result, takeAll [] input s.inputs = .ok result ∧
          ∀ bound rest, result = some (bound, rest) → (bound.map Prod.fst).Nodup ∧
            ((∀ f ∈ rewritesAll steps, f.EmitsGiven) →
              ∀ t ∈ s.outputs, (t.resolve bound.value?).isSome)) ∧
    ∀ (seed : Counter) (run : List Combinator) (c : Combinator) (rest : List Combinator),
      anyTraverse run = false → c.hasTraverse = true →
      seed.toNat + Leaf.varsAll (leavesAll (run ++ c :: rest)) < 4294967296 →
      ∃ s, extract seed run = .ok s ∧ extract seed (run ++ c :: rest) = .ok s := by
  refine ⟨?_, ?_⟩
  · intro seed steps hunits
    obtain ⟨run, rest, rfl, hrun, hrest⟩ := exists_longest_run steps
    have hreads := reads_fuse seed.toNat run hrun
    have hlen := (consumed_fuse_eq_length seed.toNat run).mpr hrun
    have hgiven (h : ∀ f ∈ rewritesAll (run ++ rest), f.EmitsGiven) :
        ∀ f ∈ rewritesAll run, f.EmitsGiven := by
      rw [rewritesAll_append] at h
      exact fun f hf => h f (List.mem_append_left _ hf)
    refine ⟨fuse seed.toNat run, Leaf.units (leavesAll run), ?_, ?_, hreads.nextVar_eq, ?_, ?_, ?_,
      ?_, ?_⟩
    · rw [extract_eq hunits, fuse_append_of_hasTraverse seed.toNat hrun hrest]
    · rw [hlen, List.take_left]
    · rw [hreads.inputs, Leaf.captures_patterns]
    · rw [hreads.inputs, Leaf.captures_patterns, List.map_fst_zip (by simp)]
      exact List.nodup_range'
    · rw [hreads.guards]
      exact Leaf.forall₂_guards seed.toNat (leavesAll run)
    · intro hf x hx
      rw [hreads.nextVar_eq]
      exact List.mem_range'_1.mp (mem_captures_outputs (hgiven hf) hrun hx)
    · intro input
      obtain ⟨result, hresult⟩ := Leaf.exists_takeAll_patterns (leavesAll run) seed.toNat input
      rw [← hreads.inputs] at hresult
      refine ⟨result, hresult, ?_⟩
      rintro bound behind rfl
      refine ⟨?_, fun hf t ht => isSome_resolve_outputs (hgiven hf) hrun hresult ht⟩
      rw [hreads.keys_eq hresult]
      exact List.nodup_reverse.mpr List.nodup_range'
  · intro seed run c rest hrun hc hunits
    have hsum := hunits
    rw [leavesAll_append, Leaf.varsAll_append] at hsum
    refine ⟨_, extract_eq (by omega), ?_⟩
    rw [extract_eq hunits, fuse_append_of_hasTraverse seed.toNat hrun (by simpa using hc)]

end Segment

namespace Combinator

/-- A digit in reversed bounds or a dash, then any byte and a letter, put out in reverse. -/
def guarded : List Combinator :=
  [.byteRange [⟨57, 48⟩, ⟨45, 45⟩] [], .literal ":",
    .compileTraverse [byte, .label [.byteRange [⟨97, 122⟩] [.size 16]] "letter"]
      ⟨"reverse", List.reverse⟩]

/-- A label with two bytes in front of a traverse. -/
def unfusable : Combinator := .label [byte, byte, .traverse [byte] ⟨"reverse", List.reverse⟩] "x"

end Combinator

namespace Segment
open Combinator

/-- Three units are numbered from 7, and the label behind them takes no number. -/
theorem capture_hygiene_guarded :
    (7 : Counter).toNat + Leaf.varsAll (leavesAll (guarded ++ unfusable :: [byte])) < 4294967296 ∧
    (∀ f ∈ rewritesAll guarded, f.EmitsGiven) ∧ anyTraverse guarded = false ∧
    unfusable.hasTraverse = true ∧ ∃ s, extract 7 guarded = .ok s ∧
      extract 7 (guarded ++ unfusable :: [byte]) = .ok s ∧ s.nextVar = 10 ∧
      s.inputs.filterMap Pattern.capture? = [(7, {}), (8, {}), (9, { bits := 16 })] ∧
      (∃ g h, s.guards = [g, h] ∧ g.Tests 7 [⟨57, 48⟩, ⟨45, 45⟩] ∧ h.Tests 9 [⟨97, 122⟩]) ∧
      ∀ x ∈ Term.capturesAll s.outputs, 7 ≤ x ∧ x < 10 := by
  have hunits : (7 : Counter).toNat +
      Leaf.varsAll (leavesAll (guarded ++ unfusable :: [byte])) < 4294967296 := by decide
  have hgiven : ∀ f ∈ rewritesAll guarded, f.EmitsGiven := by
    intro f hf
    obtain rfl : f = ⟨"reverse", List.reverse⟩ := by
      simpa [guarded, rewritesAll, rewrites, byte] using hf
    intro ts x hx
    simpa [Term.capturesAll_eq_flatMap] using hx
  obtain ⟨s, units, hs, hfront, hnext, hinputs, -, hguards, houtputs, -⟩ :=
    capture_hygiene.1 7 guarded (by decide)
  obtain ⟨t, ht, hbehind⟩ := capture_hygiene.2 7 guarded unfusable [byte] (by decide) (by decide)
    hunits
  obtain rfl : t = s := Except.ok.inj (ht.symm.trans hs)
  have hconsumed : t.consumed = 3 := by
    rw [Except.ok.inj (ht.symm.trans (extract_eq (by decide)))]
    decide
  obtain rfl : units = [([⟨57, 48⟩, ⟨45, 45⟩], []), ([], []), ([⟨97, 122⟩], [.size 16])] := by
    rw [hfront, hconsumed]
    rfl
  refine ⟨hunits, hgiven, by decide, by decide, t, hs, hbehind, hnext, hinputs, ?_, ?_⟩
  · obtain ⟨g, gs, hg, hgs, heq⟩ := List.forall₂_cons_left_iff.mp hguards
    obtain ⟨h, hs', hh, hnil, rfl⟩ := List.forall₂_cons_left_iff.mp hgs
    rw [List.forall₂_nil_left_iff.mp hnil] at heq
    exact ⟨g, h, heq, hg, hh⟩
  · intro x hx
    have hbounds := houtputs hgiven x hx
    rw [hnext] at hbounds
    exact hbounds

end Segment
end ParserChain
