import Mathlib.Data.List.Nodup
import ParserChain.Proofs.Flawless
import ParserChain.Proofs.Passes
import ParserChain.Proofs.Termination

/-! The shape that the check promises, said by the places at which procedures stand. The check
accepts exactly the programs of that shape and calls any other broken. -/
namespace ParserChain

/-- Control goes forward along the chain, and every failure has a place of its own to go to. -/
structure Program.ForwardChain (p : Program) : Prop where
  names_unique : ∀ (i j : Nat) (d e : Procedure), p.procedures[i]? = some d →
    p.procedures[j]? = some e → d.name = e.name → i = j
  entry_first : ∃ d, p.procedures[0]? = some d ∧ d.name = p.entry.target
  one_success : ∃! i : Nat, ∃ d, p.procedures[i]? = some d ∧ d.body = .ok
  success_last : ∃ d, p.procedures.getLast? = some d ∧ d.body = .ok
  calls_forward : ∀ (i : Nat) (d : Procedure) (target : Name) (update : AccUpdate)
    (frames : StackUpdate) (move : Movement), p.procedures[i]? = some d →
      d.body = .invoke target update frames move → target.isCatchAll = false ∧
        ∃ j e, i < j ∧ p.procedures[j]? = some e ∧ e.name = target
  falls_back : ∀ d ∈ p.procedures, ∀ name, d.fallback = some name →
    name.isCatchAll = true ∧ ∃ e ∈ p.procedures, e.name = name
  few_callers : ∀ name, p.procedures.countP (·.body.target? = some name) ≤ 2
  one_owner : ∀ e ∈ p.procedures, e.name.isCatchAll = true →
    ∃! i : Nat, ∃ d, p.procedures[i]? = some d ∧ d.fallback = some e.name

/-- Exactly one place holds what is looked for if there is one of it. -/
lemma existsUnique_getElem?_iff {α : Type} {q : α → Bool} {xs : List α} :
    (∃! i : Nat, ∃ x, xs[i]? = some x ∧ q x = true) ↔ xs.countP q = 1 := by
  induction xs with
  | nil => simp [ExistsUnique]
  | cons x xs ih =>
    cases hx : q x with
    | false =>
      rw [List.countP_cons_of_neg (by simp [hx]), ← ih]
      constructor
      · rintro ⟨i, ⟨y, hy, hq⟩, hunique⟩
        cases i with
        | zero => simp_all
        | succ i =>
          refine ⟨i, ⟨y, by simpa using hy, hq⟩, fun j hj => ?_⟩
          exact Nat.succ.inj (hunique (j + 1) (by simpa using hj))
      · rintro ⟨i, ⟨y, hy, hq⟩, hunique⟩
        refine ⟨i + 1, ⟨y, by simpa using hy, hq⟩, fun j hj => ?_⟩
        cases j with
        | zero => simp_all
        | succ j => exact congrArg Nat.succ (hunique j (by simpa using hj))
    | true =>
      rw [List.countP_cons_of_pos hx, Nat.add_eq_right, List.countP_eq_zero]
      constructor
      · rintro ⟨i, -, hunique⟩ y hy hq
        obtain ⟨j, hj⟩ := List.mem_iff_getElem?.mp hy
        have hzero := hunique 0 ⟨x, rfl, hx⟩
        have hsucc := hunique (j + 1) ⟨y, by simpa using hj, hq⟩
        omega
      · intro hnone
        refine ⟨0, ⟨x, rfl, hx⟩, ?_⟩
        rintro j ⟨y, hy, hq⟩
        cases j with
        | zero => rfl
        | succ j => exact absurd hq (hnone y (List.mem_of_getElem? (by simpa using hy)))

lemma Body.isOk_iff {body : Body} : body.isOk = true ↔ body = .ok := by
  cases body <;> simp [isOk]

lemma Body.target?_eq_some {body : Body} {target : Name} : body.target? = some target ↔
    ∃ update frames move, body = .invoke target update frames move := by
  cases body <;> simp [target?, eq_comm]

namespace Program

lemma names_getElem? {p : Program} {i : Nat} {name : Name} :
    p.names[i]? = some name ↔ ∃ d, p.procedures[i]? = some d ∧ d.name = name := by
  simp [names]

lemma names_nodup_iff {p : Program} : p.names.Nodup ↔ ∀ (i j : Nat) (d e : Procedure),
    p.procedures[i]? = some d → p.procedures[j]? = some e → d.name = e.name → i = j := by
  constructor
  · intro h i j d e hd he heq
    have hi : p.names[i]? = some e.name := names_getElem?.mpr ⟨d, hd, heq⟩
    have hj : p.names[j]? = some e.name := names_getElem?.mpr ⟨e, he, rfl⟩
    exact (List.getElem?_inj (List.getElem?_eq_some_iff.mp hi).1 h).mp (hi.trans hj.symm)
  · intro h
    rw [List.nodup_iff_getElem?_ne_getElem?]
    intro i j hij hj heq
    obtain ⟨e, he, hname⟩ := names_getElem?.mp (List.getElem?_eq_getElem hj)
    obtain ⟨d, hd, hname'⟩ := names_getElem?.mp (heq.trans (List.getElem?_eq_getElem hj))
    exact Nat.ne_of_lt hij (h i j d e hd he (hname'.trans hname.symm))

lemma count_targets (p : Program) (name : Name) :
    p.targets.count name = p.procedures.countP (·.body.target? = some name) := by
  rw [targets, List.count_eq_countP, List.countP_filterMap]
  refine List.countP_congr fun d _ => ?_
  cases d.body.target? <;> simp

lemma count_fallbacks (p : Program) (name : Name) :
    p.fallbacks.count name = p.procedures.countP (·.fallback = some name) := by
  rw [fallbacks, List.count_eq_countP, List.countP_filterMap]
  refine List.countP_congr fun d _ => ?_
  cases d.fallback <;> simp

lemma mem_names {p : Program} {name : Name} :
    name ∈ p.names ↔ ∃ d ∈ p.procedures, d.name = name := by
  simp [names]

lemma one_success_iff {p : Program} : p.procedures.countP (·.body.isOk) = 1 ↔
    ∃! i : Nat, ∃ d, p.procedures[i]? = some d ∧ d.body = .ok := by
  simp only [← existsUnique_getElem?_iff, Body.isOk_iff]

lemma one_owner_iff {p : Program} {name : Name} : p.fallbacks.count name = 1 ↔
    ∃! i : Nat, ∃ d, p.procedures[i]? = some d ∧ d.fallback = some name := by
  simp only [count_fallbacks, ← existsUnique_getElem?_iff, decide_eq_true_eq]

lemma Flawless.forwardChain {p : Program} (h : p.Flawless) : p.ForwardChain where
  names_unique := names_nodup_iff.mp h.names_nodup
  entry_first := names_getElem?.mp (List.head?_eq_getElem? ▸ h.entry_first)
  one_success := one_success_iff.mp h.one_success
  success_last := by
    obtain ⟨d, hd, hok⟩ := (Option.any_eq_true _ _).mp h.success_last
    exact ⟨d, hd, Body.isOk_iff.mp hok⟩
  calls_forward := by
    intro i d target update frames move hd hbody
    have htarget := Body.target?_eq_some.mpr ⟨update, frames, move, hbody⟩
    obtain ⟨⟨j, hij, hj⟩, hlink⟩ := h.calls_forward i d target hd htarget
    obtain ⟨e, he, hname⟩ := names_getElem?.mp hj
    exact ⟨hlink, j, e, hij, he, hname⟩
  falls_back := by
    intro d hd name hfall
    obtain ⟨hcatch, hname⟩ := h.falls_back d hd name hfall
    exact ⟨hcatch, mem_names.mp hname⟩
  few_callers name := count_targets p name ▸ h.few_callers name
  one_owner e he hcatch := one_owner_iff.mp (h.owned e.name (mem_names.mpr ⟨e, he, rfl⟩) hcatch)

lemma ForwardChain.flawless {p : Program} (h : p.ForwardChain) : p.Flawless where
  names_nodup := names_nodup_iff.mpr h.names_unique
  entry_first := List.head?_eq_getElem? ▸ names_getElem?.mpr h.entry_first
  one_success := one_success_iff.mpr h.one_success
  success_last := by
    obtain ⟨d, hd, hok⟩ := h.success_last
    exact (Option.any_eq_true _ _).mpr ⟨d, hd, Body.isOk_iff.mpr hok⟩
  calls_forward := by
    intro i d target hd htarget
    obtain ⟨update, frames, move, hbody⟩ := Body.target?_eq_some.mp htarget
    obtain ⟨hlink, j, e, hij, he, hname⟩ := h.calls_forward i d target update frames move hd hbody
    exact ⟨⟨j, hij, names_getElem?.mpr ⟨e, he, hname⟩⟩, hlink⟩
  falls_back := by
    intro d hd name hfall
    obtain ⟨hcatch, hname⟩ := h.falls_back d hd name hfall
    exact ⟨hcatch, mem_names.mpr hname⟩
  few_callers name := (count_targets p name).symm ▸ h.few_callers name
  owned := by
    intro name hname hcatch
    obtain ⟨e, he, rfl⟩ := mem_names.mp hname
    exact one_owner_iff.mpr (h.one_owner e he hcatch)

lemma flaw?_eq_none_iff_forwardChain (p : Program) : p.flaw? = none ↔ p.ForwardChain :=
  (flaw?_eq_none_iff p).trans ⟨Flawless.forwardChain, ForwardChain.flawless⟩

/-- The check makes its passes and accepts exactly the forward chains. Of any other program it says
that the chain of that name is broken. -/
theorem verify_decides_forwardChain (p : Program) :
    (p.verify = .ok () ↔ p.ForwardChain) ∧
    (¬ p.ForwardChain ↔ ∃ flaw, p.verify = .error (.brokenChain p.name flaw)) ∧
    p.verify = p.passes.mapError (.brokenChain p.name) := by
  rw [← flaw?_eq_none_iff_forwardChain, passes_eq, verify]
  cases p.flaw? with
  | none => exact ⟨by simp, by simp, rfl⟩
  | some flaw => exact ⟨by simp, by simp, rfl⟩

end Program
end ParserChain
