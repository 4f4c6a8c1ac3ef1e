import ParserChain.Program.Edit
import ParserChain.Proofs.Shape

/-! Damage to a compiled chain. Every name of a chain is there for another procedure that mentions
it, or for the entry, and it is there once; so the check notices when a procedure is missing, stands
twice, has another name or another fallback, or when two links change places. -/
namespace ParserChain

/-- Edits that take a procedure away, double it, or give it another name or fallback, or that let
two links change places. -/
def Edit.Damages (p : Program) : Edit → Prop
  | .remove i => i < p.procedures.length
  | .copy i _ => i < p.procedures.length
  | .rename i name => ∃ d, p.procedures[i]? = some d ∧ name ≠ d.name
  | .fallback i name => ∃ d, p.procedures[i]? = some d ∧ name ≠ d.fallback
  | .swap i j => i ≠ j ∧ ∃ d e, p.procedures[i]? = some d ∧ p.procedures[j]? = some e ∧
      d.name.isCatchAll = false ∧ e.name.isCatchAll = false
  | _ => False

section Lists
variable {α : Type}

lemma exchange_comm (xs : List α) {i j : Nat} (h : i ≠ j) : exchange xs i j = exchange xs j i := by
  unfold exchange
  cases xs[i]? with
  | none => cases xs[j]? <;> rfl
  | some x =>
    cases xs[j]? with
    | none => rfl
    | some y => exact List.set_comm y x h

lemma exchange_eq {xs : List α} {i j : Nat} {x y : α} (hi : xs[i]? = some x)
    (hj : xs[j]? = some y) : exchange xs i j = (xs.set i y).set j x := by
  simp [exchange, hi, hj]

lemma eq_append_of_getElem? {xs : List α} {i : Nat} {x : α} (h : xs[i]? = some x) :
    xs = xs.take i ++ x :: xs.drop (i + 1) := by
  obtain ⟨hlt, rfl⟩ := List.getElem?_eq_some_iff.mp h
  simp

lemma modify_eq_append {xs : List α} {i : Nat} {x : α} (h : xs[i]? = some x) (f : α → α) :
    xs.modify i f = xs.take i ++ f x :: xs.drop (i + 1) := by
  obtain ⟨hlt, rfl⟩ := List.getElem?_eq_some_iff.mp h
  rw [List.modify_eq_take_cons_drop hlt]

end Lists

/-- The procedure goes on to that name, by a call or by falling back. -/
def Procedure.Mentions (d : Procedure) (name : Name) : Prop :=
  d.body.target? = some name ∨ d.fallback = some name

namespace Program

lemma Flawless.mem_of_mentions {p : Program} (h : p.Flawless) {d : Procedure} {name : Name}
    (hd : d ∈ p.procedures) (hname : d.Mentions name) : name ∈ p.names := by
  rcases hname with htarget | hfall
  · obtain ⟨i, hi⟩ := List.mem_iff_getElem?.mp hd
    obtain ⟨⟨j, -, hj⟩, -⟩ := h.calls_forward i d name hi htarget
    exact List.mem_of_getElem? hj
  · exact (h.falls_back d hd name hfall).2

/-- The entry goes to the first link, a link is called by the one before it, and a catch-all is
what its link falls back to. -/
lemma IsChain.mentioned {p : Program} {last : Nat} (h : p.IsChain last) {d : Procedure}
    (hd : d ∈ p.procedures) : d.name = p.entry.target ∨
      ∃ e ∈ p.procedures, e.name ≠ d.name ∧ e.Mentions d.name := by
  rcases h.link_or_catchAll hd with hl | ⟨l, hl, hinput, reason, rfl⟩
  · obtain ⟨i, hi⟩ := List.mem_iff_getElem?.mp hl
    have hname := h.name_of_getElem? hi
    cases i with
    | zero => exact .inl (hname.trans h.entry.symm)
    | succ i =>
      have hlt := (List.getElem?_eq_some_iff.mp hi).1
      have hlen := h.length_links
      have hbefore : i < p.links.length := by omega
      have he : p.links[i]? = some p.links[i] := List.getElem?_eq_getElem hbefore
      have hnext := h.calls_next i _ (by omega) he
      refine .inr ⟨_, mem_procedures (List.mem_of_getElem? he), ?_, .inl ?_⟩
      · rw [h.name_of_getElem? he, hname]
        simp [Name.link]
      · rw [hnext, hname]
  · have hfall := h.falls_back l hl
    refine .inr ⟨l, mem_procedures hl, ?_, .inr (by simp [hfall, hinput])⟩
    intro heq
    have hlink := isCatchAll_of_mem_links hl
    rw [heq, Name.isCatchAll_catchAll] at hlink
    cases hlink

/-- Where a procedure of a chain makes way for procedures of other names, its name is missed. -/
lemma IsChain.not_flawless_of_replaced {p q : Program} {last : Nat} (h : p.IsChain last)
    {front back : List Procedure} {d : Procedure} (hp : p.procedures = front ++ d :: back)
    (mid : List Procedure) (hq : q.procedures = front ++ (mid ++ back))
    (hentry : q.entry = p.entry) (hmid : ∀ e ∈ mid, e.name ≠ d.name) : ¬ q.Flawless := by
  intro hflawless
  have hnodup := h.names_nodup
  simp only [names, hp, List.map_append, List.map_cons, List.nodup_middle, List.nodup_cons,
    List.mem_append, not_or, List.mem_map, not_exists, not_and] at hnodup
  obtain ⟨⟨hfront, hback⟩, -⟩ := hnodup
  have hmiss : d.name ∉ q.names := by
    simp only [names, hq, List.map_append, List.mem_append, List.mem_map]
    rintro (⟨e, he, hname⟩ | ⟨e, he, hname⟩ | ⟨e, he, hname⟩)
    · exact hfront e he hname
    · exact hmid e he hname
    · exact hback e he hname
  rcases h.mentioned (d := d) (by simp [hp]) with heq | ⟨e, he, hne, hmention⟩
  · have hfirst := hflawless.entry_first
    rw [hentry, ← heq] at hfirst
    exact hmiss (List.mem_of_mem_head? hfirst)
  · refine hmiss (hflawless.mem_of_mentions ?_ hmention)
    have hed : e ≠ d := fun hed => hne (hed ▸ rfl)
    simp only [hp, List.mem_append, List.mem_cons, hed, false_or] at he
    rw [hq]
    rcases he with he | he <;> simp [he]

lemma not_flawless_of_copied {p q : Program} {d : Procedure} {i : Nat} (hd : d ∈ p.procedures)
    (hq : q.procedures = insertAt p.procedures i d) : ¬ q.Flawless := by
  intro hflawless
  have hnodup := hflawless.names_nodup
  rw [names, hq, insertAt, List.map_append, List.map_cons, List.nodup_middle, ← List.map_append,
    List.take_append_drop, List.nodup_cons] at hnodup
  exact hnodup.1 (List.mem_map_of_mem hd)

/-- The references to a name are counted, so that of two fallbacks in one place only one is
right. -/
lemma Flawless.fallback_unique {p q : Program} (h : p.Flawless) (hflawless : q.Flawless)
    {front back : List Procedure} {d e : Procedure} (hp : p.procedures = front ++ d :: back)
    (hq : q.procedures = front ++ e :: back) (hname : e.name = d.name) :
    e.fallback = d.fallback := by
  have hnames : q.names = p.names := by simp [names, hp, hq, hname]
  have hcount (r : Program) (c : Procedure) (hr : r.procedures = front ++ c :: back) (n : Name) :
      r.fallbacks.count n = (front.filterMap (·.fallback)).count n +
        (c.fallback.toList.count n + (back.filterMap (·.fallback)).count n) := by
    rw [fallbacks, hr, List.filterMap_append, List.filterMap_cons, List.count_append]
    cases c.fallback <;> simp [List.count_cons, Nat.add_comm]
  have howned (n : Name) (hn : d.fallback = some n ∨ e.fallback = some n) :
      d.fallback.toList.count n = e.fallback.toList.count n := by
    have hcatch : n.isCatchAll = true ∧ n ∈ p.names := by
      rcases hn with hn | hn
      · exact h.falls_back d (by simp [hp]) n hn
      · exact hnames ▸ hflawless.falls_back e (by simp [hq]) n hn
    have hone := h.owned n hcatch.2 hcatch.1
    have hone' := hflawless.owned n (hnames ▸ hcatch.2) hcatch.1
    rw [hcount p d hp] at hone
    rw [hcount q e hq] at hone'
    omega
  cases hd : d.fallback with
  | some n =>
    have heq := howned n (.inl hd)
    cases he : e.fallback with
    | none => simp [hd, he] at heq
    | some m =>
      by_cases hmn : m = n
      · rw [hmn]
      · simp [hd, he, hmn] at heq
  | none =>
    cases he : e.fallback with
    | none => rfl
    | some m => simpa [hd, he] using howned m (.inr he)

namespace IsChain
variable {p : Program} {last : Nat} (h : p.IsChain last)
include h

lemma place_inj {i j : Nat} {name : Name} (hi : p.names[i]? = some name)
    (hj : p.names[j]? = some name) : i = j :=
  (List.getElem?_inj (List.getElem?_eq_some_iff.mp hi).1 h.names_nodup).mp (hi.trans hj.symm)

/-- Of two links the one that stands further on has the larger number. -/
lemma number_lt {i j m n : Nat} (hij : i < j) (hi : p.names[i]? = some (.link p.name m))
    (hj : p.names[j]? = some (.link p.name n)) : m < n := by
  rcases Nat.lt_trichotomy m n with hlt | rfl | hlt
  · exact hlt
  · have heq := h.place_inj hi hj
    omega
  · have hji := h.lt_of_names hlt hj hi
    omega

/-- A procedure that is no catch-all is the link of its number. -/
lemma exists_number {i : Nat} {d : Procedure} (hi : p.procedures[i]? = some d)
    (hd : d.name.isCatchAll = false) :
    ∃ m ≤ last, p.links[m]? = some d ∧ p.names[i]? = some (.link p.name m) := by
  have hmem : d ∈ p.links := List.mem_filter.mpr ⟨List.mem_of_getElem? hi, by simp [hd]⟩
  obtain ⟨m, hm⟩ := List.mem_iff_getElem?.mp hmem
  have hlen := (List.getElem?_eq_some_iff.mp hm).1
  rw [h.length_links] at hlen
  exact ⟨m, by omega, hm, by simp [names, hi, h.name_of_getElem? hm]⟩

/-- Of two links that change places the earlier one calls backwards. -/
lemma not_flawless_of_swapped {q : Program} {i j : Nat} {d e : Procedure} (hij : i < j)
    (hi : p.procedures[i]? = some d) (hj : p.procedures[j]? = some e)
    (hd : d.name.isCatchAll = false) (he : e.name.isCatchAll = false)
    (hq : q.procedures = (p.procedures.set i e).set j d) : ¬ q.Flawless := by
  intro hflawless
  obtain ⟨m, -, hm, hdname⟩ := h.exists_number hi hd
  obtain ⟨n, hn, -, hename⟩ := h.exists_number hj he
  have hmn := h.number_lt hij hdname hename
  have htarget := h.calls_next m d (by omega) hm
  have hjlen := (List.getElem?_eq_some_iff.mp hj).1
  have hdj : q.procedures[j]? = some d := by
    rw [hq, List.getElem?_set_self (by simpa using hjlen)]
  obtain ⟨⟨k, hjk, hk⟩, -⟩ := hflawless.calls_forward j d _ hdj htarget
  -- Behind both places nothing has changed.
  have hpk : p.names[k]? = some (.link p.name (m + 1)) := by
    rw [names, hq, List.getElem?_map, List.getElem?_set_ne (by omega),
      List.getElem?_set_ne (by omega), ← List.getElem?_map] at hk
    exact hk
  have hlt := h.number_lt hjk hename hpk
  omega

end IsChain

lemma name_edit (p : Program) (e : Edit) : (p.edit e).name = p.name := by
  cases e with
  | copy i j => cases hd : p.procedures[i]? <;> simp [edit, hd, withProcedures]
  | _ => rfl

/-- An edit that damages a chain leaves a program with a flaw. -/
theorem IsChain.not_flawless_edit {p : Program} {last : Nat} (h : p.IsChain last) {e : Edit}
    (he : e.Damages p) : ¬ (p.edit e).Flawless := by
  cases e with
  | remove i =>
    have hd : p.procedures[i]? = some p.procedures[i] := List.getElem?_eq_getElem he
    refine h.not_flawless_of_replaced (eq_append_of_getElem? hd) [] ?_ rfl (by simp)
    simp [edit, withProcedures, List.eraseIdx_eq_take_drop_succ]
  | copy i j =>
    have hd : p.procedures[i]? = some p.procedures[i] := List.getElem?_eq_getElem he
    exact not_flawless_of_copied (List.mem_of_getElem? hd) (i := j)
      (by simp [edit, hd, withProcedures])
  | rename i name =>
    obtain ⟨d, hd, hne⟩ := he
    refine h.not_flawless_of_replaced (eq_append_of_getElem? hd) [{ d with name := name }] ?_ rfl
      (by simpa using hne)
    simp [edit, withProcedures, modify_eq_append hd]
  | fallback i name =>
    obtain ⟨d, hd, hne⟩ := he
    intro hflawless
    exact hne (h.flawless.fallback_unique hflawless (eq_append_of_getElem? hd)
      (e := { d with fallback := name })
      (by simp [edit, withProcedures, modify_eq_append hd]) rfl)
  | swap i j =>
    obtain ⟨hij, d, e, hi, hj, hd, he⟩ := he
    rcases Nat.lt_or_gt_of_ne hij with hlt | hgt
    · exact h.not_flawless_of_swapped hlt hi hj hd he (exchange_eq hi hj)
    · exact h.not_flawless_of_swapped hgt hj hi he hd
        ((exchange_comm p.procedures hij).trans (exchange_eq hj hi))
  | insert i d => exact he.elim
  | body i body => exact he.elim
  | target i name => exact he.elim
  | entry name => exact he.elim

lemma exists_flaw_of_not_flawless {p : Program} (h : ¬ p.Flawless) :
    ∃ flaw, p.verify = .error (.brokenChain p.name flaw) := by
  rw [← flaw?_eq_none_iff] at h
  obtain ⟨flaw, hflaw⟩ := Option.ne_none_iff_exists'.mp h
  exact ⟨flaw, by rw [verify, hflaw]⟩

end Program

/-- The check accepts what was compiled, and rejects it after any edit that damages a chain. -/
theorem damaged_compile_rejected {config : Config} {name : String} {steps : List Combinator}
    {p : Program} (hp : config.compile name steps = .ok p) : p.verify = .ok () ∧
      ∀ e : Edit, e.Damages p → ∃ flaw, (p.edit e).verify = .error (.brokenChain name flaw) := by
  obtain ⟨links, -, rfl⟩ := expands_of_compile hp
  have hchain := Program.isChain_ofLinks name config.start links
  refine ⟨Program.verify_ofLinks name config.start links, ?_⟩
  intro e he
  obtain ⟨flaw, hflaw⟩ := Program.exists_flaw_of_not_flawless (hchain.not_flawless_edit he)
  rw [Program.name_edit] at hflaw
  exact ⟨flaw, hflaw⟩

open Combinator in
/-- The sample with its first two links behind the entry exchanged, and without the fallback of the
link that reads first. -/
theorem damaged_compile_rejected_sample : ∃ p,
    Config.compile {} "p" (sample ⟨"same", id⟩) = .ok p ∧
      (Edit.swap 2 3).Damages p ∧ (Edit.fallback 0 none).Damages p ∧
      (∃ flaw, (p.edit (.swap 2 3)).verify = .error (.brokenChain "p" flaw)) ∧
      ∃ flaw, (p.edit (.fallback 0 none)).verify = .error (.brokenChain "p" flaw) := by
  have hp := (expands_sample ⟨"same", id⟩).compile_eq (by simp [sample]) {} "p"
  have hswap : (Edit.swap 2 3).Damages
      (Program.ofLinks "p" ⟨1, 1⟩ (sampleLinks ⟨"same", id⟩)) :=
    ⟨by decide, _, _, rfl, rfl, rfl, rfl⟩
  have hfall : (Edit.fallback 0 none).Damages
      (Program.ofLinks "p" ⟨1, 1⟩ (sampleLinks ⟨"same", id⟩)) :=
    ⟨_, rfl, by decide⟩
  exact ⟨_, hp, hswap, hfall, (damaged_compile_rejected hp).2 _ hswap,
    (damaged_compile_rejected hp).2 _ hfall⟩

end ParserChain
