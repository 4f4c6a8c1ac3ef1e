import Mathlib.Tactic.Lemma
import ParserChain.Program.Flaw

/-! What the check of a program accepts, said without the order of its passes. -/
namespace ParserChain

/-- The shape that the check asks for. -/
structure Program.Flawless (p : Program) : Prop where
  names_nodup : p.names.Nodup
  entry_first : p.names.head? = some p.entry.target
  one_success : p.procedures.countP (·.body.isOk) = 1
  success_last : p.procedures.getLast?.any (·.body.isOk) = true
  /-- A call goes to a later procedure, which is no catch-all. -/
  calls_forward : ∀ (i : Nat) (d : Procedure) (target : Name), p.procedures[i]? = some d →
    d.body.target? = some target → (∃ j, i < j ∧ p.names[j]? = some target) ∧
      target.isCatchAll = false
  falls_back : ∀ d ∈ p.procedures, ∀ name, d.fallback = some name →
    name.isCatchAll = true ∧ name ∈ p.names
  few_callers : ∀ name, p.targets.count name ≤ Program.maxPredecessors
  /-- A catch-all backs exactly one procedure. -/
  owned : ∀ name ∈ p.names, name.isCatchAll = true → p.fallbacks.count name = 1

namespace Program

lemma entryFlaw?_eq_none {p : Program} :
    p.entryFlaw? = none ↔ p.names.head? = some p.entry.target := by
  simp [entryFlaw?]

lemma successFlaw?_eq_none {p : Program} : p.successFlaw? = none ↔
    p.procedures.countP (·.body.isOk) = 1 ∧ p.procedures.getLast?.any (·.body.isOk) = true := by
  by_cases hc : p.procedures.countP (·.body.isOk) = 1 <;> simp [successFlaw?, hc]

/-- Where no name occurs twice, a call is fine exactly when a later place has its target. -/
lemma targetFlaw?_eq_none {names : List Name} (h : names.Nodup) {position : Nat}
    {source target : Name} : targetFlaw? names position source target = none ↔
      (∃ j, position < j ∧ names[j]? = some target) ∧ target.isCatchAll = false := by
  unfold targetFlaw?
  cases hf : names.idxOf? target with
  | none =>
    have hn : target ∉ names := List.idxOf?_eq_none_iff.mp hf
    have hj (j : Nat) : names[j]? ≠ some target := fun hs => hn (List.mem_of_getElem? hs)
    simp [hj]
  | some found =>
    have hfound : names[found]? = some target := by
      obtain ⟨hlt, heq, -⟩ := List.idxOf?_eq_some_iff.mp hf
      rw [List.getElem?_eq_getElem hlt, heq]
    have hlt : (∃ j, position < j ∧ names[j]? = some target) ↔ position < found := by
      constructor
      · rintro ⟨j, hj, hs⟩
        have hjlen : j < names.length := (List.getElem?_eq_some_iff.mp hs).1
        have heq : j = found := (List.getElem?_inj hjlen h).mp (hs.trans hfound.symm)
        exact heq ▸ hj
      · exact fun hj => ⟨found, hj, hfound⟩
    rw [hlt]
    by_cases hle : found ≤ position
    · simp [hle, Nat.not_lt.mpr hle]
    · cases target.isCatchAll <;> simp [hle, Nat.lt_of_not_le hle]

lemma fallbackFlaw?_eq_none {names : List Name} {source fallback : Name} :
    fallbackFlaw? names source fallback = none ↔
      fallback.isCatchAll = true ∧ fallback ∈ names := by
  simp [fallbackFlaw?]

lemma linkFlaw?_eq_none {names : List Name} {position : Nat} {d : Procedure} :
    linkFlaw? names position d = none ↔
      (∀ target, d.body.target? = some target →
        targetFlaw? names position d.name target = none) ∧
      ∀ name, d.fallback = some name → fallbackFlaw? names d.name name = none := by
  cases ht : d.body.target? <;> cases hf : d.fallback <;> simp [linkFlaw?, ht, hf]

lemma crowdFlaw?_eq_none {p : Program} :
    p.crowdFlaw? = none ↔ ∀ name, p.targets.count name ≤ maxPredecessors := by
  simp only [crowdFlaw?, Option.map_eq_none_iff, List.find?_eq_none, decide_eq_true_eq, Nat.not_lt]
  constructor
  · intro h name
    by_cases hn : name ∈ p.targets
    · exact h name hn
    · simp [List.count_eq_zero.mpr hn]
  · exact fun h name _ => h name

lemma catchAllFlaw?_eq_none {p : Program} : p.catchAllFlaw? = none ↔
    ∀ name ∈ p.names, name.isCatchAll = true → p.fallbacks.count name = 1 := by
  simp [catchAllFlaw?]

lemma linkFlaws_eq_none {p : Program} (h : p.names.Nodup) :
    (∀ x ∈ p.procedures.zipIdx, linkFlaw? p.names x.2 x.1 = none) ↔
      (∀ (i : Nat) (d : Procedure) (target : Name), p.procedures[i]? = some d →
        d.body.target? = some target → (∃ j, i < j ∧ p.names[j]? = some target) ∧
          target.isCatchAll = false) ∧
      ∀ d ∈ p.procedures, ∀ name, d.fallback = some name →
        name.isCatchAll = true ∧ name ∈ p.names := by
  simp only [linkFlaw?_eq_none, targetFlaw?_eq_none h, fallbackFlaw?_eq_none,
    List.mem_zipIdx_iff_getElem?, Prod.forall]
  constructor
  · intro hall
    refine ⟨fun i d target hd ht => (hall d i hd).1 target ht, fun d hd name hf => ?_⟩
    obtain ⟨i, hi⟩ := List.mem_iff_getElem?.mp hd
    exact (hall d i hi).2 name hf
  · rintro ⟨hcalls, hfalls⟩ d i hd
    exact ⟨fun target ht => hcalls i d target hd ht,
      fun name hf => hfalls d (List.mem_of_getElem? hd) name hf⟩

/-- The check finds no flaw exactly in programs of the shape that it asks for. -/
theorem flaw?_eq_none_iff (p : Program) : p.flaw? = none ↔ p.Flawless := by
  simp only [flaw?, Option.or_eq_none_iff, Option.map_eq_none_iff, firstRepeat?_eq_none,
    List.findSome?_eq_none_iff, entryFlaw?_eq_none, successFlaw?_eq_none, crowdFlaw?_eq_none,
    catchAllFlaw?_eq_none]
  constructor
  · rintro ⟨⟨h1, -⟩, h2, ⟨h3, h4⟩, h5, h6, h7⟩
    obtain ⟨h8, h9⟩ := (linkFlaws_eq_none h1).mp h5
    exact ⟨h1, h2, h3, h4, h8, h9, h6, h7⟩
  · intro h
    exact ⟨⟨h.names_nodup, by simp⟩, h.entry_first, ⟨h.one_success, h.success_last⟩,
      (linkFlaws_eq_none h.names_nodup).mpr ⟨h.calls_forward, h.falls_back⟩, h.few_callers, h.owned⟩

end Program
end ParserChain
