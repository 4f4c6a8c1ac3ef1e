import Mathlib.Tactic.Lemma
import ParserChain.Proofs.Walk

/-! What one turn can do. A procedure that does not end the run hands over: to its fallback, with
all that it was given, or to the target of its body, with what the body makes of it. -/
namespace ParserChain

/-- The input, the guard and the stack of a procedure match a state. -/
structure Procedure.Matches (d : Procedure) (s : State) (bound : Bindings) (rest : List UInt8)
    (saved : Option (List Value)) (stack : List (List Value)) : Prop where
  input : takeAll [] s.rest d.input = .ok (some (bound, rest))
  guard : d.guard.test bound.value? = true
  stack : d.stack.take s.stack = some (saved, stack)

/-- The procedure hands over from one state to another. -/
inductive Procedure.HandsOver (d : Procedure) (s : State) : State → Prop
  | refused {name : Name} (hname : d.fallback = some name) :
      HandsOver d s { s with current := name }
  | matched {bound : Bindings} {rest : List UInt8} {saved : Option (List Value)}
      {stack : List (List Value)} {target : Name} {update : AccUpdate} {frames : StackUpdate}
      {move : Movement} {acc : List Value} {position : Position}
      (hmatch : d.Matches s bound rest saved stack)
      (hbody : d.body = .invoke target update frames move)
      (hacc : update.apply bound saved s.acc = .ok acc)
      (hmove : move.move? s.position = some position) :
      HandsOver d s ⟨target, rest, acc, frames.apply s.acc stack, position⟩

namespace Procedure
variable {d : Procedure} {s t : State} {bound : Bindings} {rest : List UInt8}
  {saved : Option (List Value)} {stack : List (List Value)}

lemma Matches.turn_eq (h : d.Matches s bound rest saved stack) :
    d.turn s = d.body.perform s bound saved stack rest := by
  simp [turn, h.input, h.guard, h.stack]

/-- A turn is cut short by a fault, is a refusal, or is that of the body. -/
lemma turn_cases (d : Procedure) (s : State) : (∃ fault, d.turn s = .fault fault) ∨
    d.turn s = d.refuse s ∨ ∃ bound rest saved stack, d.Matches s bound rest saved stack := by
  cases hinput : takeAll [] s.rest d.input with
  | error fault => exact .inl ⟨fault, by simp [turn, hinput]⟩
  | ok taken =>
    right
    cases taken with
    | none => exact .inl (by simp [turn, hinput])
    | some taken =>
      obtain ⟨bound, rest⟩ := taken
      cases hguard : d.guard.test bound.value? with
      | false => exact .inl (by simp [turn, hinput, hguard])
      | true =>
        cases hstack : d.stack.take s.stack with
        | none => exact .inl (by simp [turn, hinput, hstack])
        | some taken => exact .inr ⟨bound, rest, taken.1, taken.2, hinput, hguard, hstack⟩

lemma refuse_eq_next (h : d.refuse s = .next t) :
    d.fallback = some t.current ∧ t = { s with current := t.current } := by
  unfold refuse at h
  cases hfall : d.fallback with
  | none => simp [hfall] at h
  | some name =>
    obtain rfl : { s with current := name } = t := by simpa [hfall] using h
    exact ⟨rfl, rfl⟩

/-- A body hands over to its target, and to nothing else. -/
lemma perform_eq_next (h : d.body.perform s bound saved stack rest = .next t) :
    ∃ target update frames move acc position, d.body = .invoke target update frames move ∧
      update.apply bound saved s.acc = .ok acc ∧ move.move? s.position = some position ∧
      t = ⟨target, rest, acc, frames.apply s.acc stack, position⟩ := by
  cases hbody : d.body with
  | ok => simp [hbody, Body.perform] at h
  | error reason => simp [hbody, Body.perform] at h
  | invoke target update frames move =>
    cases hacc : update.apply bound saved s.acc with
    | error fault => simp [hbody, Body.perform, hacc] at h
    | ok acc =>
      cases hmove : move.move? s.position with
      | none => simp [hbody, Body.perform, hacc, hmove] at h
      | some position =>
        simp only [hbody, Body.perform, hacc, hmove, Turn.next.injEq] at h
        exact ⟨target, update, frames, move, acc, position, rfl, hacc, hmove, h.symm⟩

lemma handsOver_of_refuse (h : d.refuse s = .next t) : d.HandsOver s t := by
  obtain ⟨hfall, ht⟩ := refuse_eq_next h
  rw [ht]
  exact .refused hfall

lemma Matches.handsOver (hm : d.Matches s bound rest saved stack)
    (h : d.body.perform s bound saved stack rest = .next t) : d.HandsOver s t := by
  obtain ⟨target, update, frames, move, acc, position, hbody, hacc, hmove, rfl⟩ :=
    perform_eq_next h
  exact .matched hm hbody hacc hmove

theorem handsOver_of_turn (h : d.turn s = .next t) : d.HandsOver s t := by
  rcases d.turn_cases s with ⟨fault, hfault⟩ | hrefuse | ⟨bound, rest, saved, stack, hm⟩
  · simp [hfault] at h
  · exact handsOver_of_refuse (hrefuse ▸ h)
  · exact hm.handsOver (hm.turn_eq ▸ h)

/-- A turn that succeeds is that of a success body, behind patterns that match. -/
theorem matches_of_turn_ok {values : List Value} {position : Position}
    (h : d.turn s = .halt (.ok values rest position)) : d.body = .ok ∧ values = s.acc.reverse ∧
      position = s.position ∧ ∃ bound saved stack, d.Matches s bound rest saved stack := by
  rcases d.turn_cases s with ⟨fault, hfault⟩ | hrefuse | ⟨bound, behind, saved, stack, hm⟩
  · simp [hfault] at h
  · rw [hrefuse, refuse] at h
    split at h <;> simp at h
  · rw [hm.turn_eq] at h
    cases hbody : d.body with
    | error reason => simp [hbody, Body.perform] at h
    | invoke target update frames move =>
      simp only [hbody, Body.perform] at h
      split at h
      · simp at h
      · split at h <;> simp at h
    | ok =>
      obtain ⟨rfl, rfl, rfl⟩ : s.acc.reverse = values ∧ behind = rest ∧ s.position = position := by
        simpa [hbody, Body.perform] using h
      exact ⟨rfl, rfl, rfl, bound, saved, stack, hm⟩

end Procedure

namespace Program
variable {p : Program} {s t : State}

/-- The procedure that a run enters is one of the program, and carries the name called for. -/
lemma mem_of_resolve? {name : Name} {d : Procedure} (h : p.resolve? name = some d) :
    d ∈ p.procedures ∧ d.name = name := by
  refine ⟨List.mem_reverse.mp (List.mem_of_find?_eq_some h), ?_⟩
  simpa using List.find?_some h

/-- A turn is that of a procedure of the name called for, unless there is none. -/
lemma turn_cases (p : Program) (s : State) : p.turn s = .fault (.undefinedProcedure s.current) ∨
    ∃ d ∈ p.procedures, d.name = s.current ∧ p.turn s = d.turn s := by
  cases hd : p.resolve? s.current with
  | none => exact .inl (by simp [turn, hd])
  | some d =>
    obtain ⟨hmem, hname⟩ := mem_of_resolve? hd
    exact .inr ⟨d, hmem, hname, by simp [turn, hd]⟩

theorem exists_handsOver (h : p.turn s = .next t) :
    ∃ d ∈ p.procedures, d.name = s.current ∧ d.HandsOver s t := by
  rcases p.turn_cases s with hfault | ⟨d, hmem, hname, hturn⟩
  · simp [hfault] at h
  · exact ⟨d, hmem, hname, Procedure.handsOver_of_turn (hturn ▸ h)⟩

/-- Every visit of a run is made at the end of a walk. -/
lemma exists_walk_of_mem_visits {fuel : Nat} {v : Visit}
    (h : v ∈ (p.runFrom fuel s).visits) : ∃ visits t, p.Walk s visits t ∧ t.visit = v := by
  induction fuel generalizing s with
  | zero => simp [runFrom] at h
  | succ fuel ih =>
    have hstay : v = s.visit → ∃ visits t, p.Walk s visits t ∧ t.visit = v :=
      fun hv => ⟨[], s, .stay s, hv.symm⟩
    cases ht : p.turn s with
    | halt outcome => exact hstay (by simpa [runFrom, ht] using h)
    | fault fault => exact hstay (by simpa [runFrom, ht] using h)
    | next t =>
      simp only [runFrom, ht, Run.after, List.mem_cons] at h
      rcases h with hv | hv
      · exact hstay hv
      · obtain ⟨visits, u, hwalk, hu⟩ := ih hv
        exact ⟨s.visit :: visits, u, .turn ht hwalk, hu⟩

end Program
namespace Program.IsChain
variable {p : Program} {last : Nat} (h : p.IsChain last)
include h

/-- A procedure that carries the name of a link is that link. -/
lemma getElem?_links {d : Procedure} (hd : d ∈ p.procedures) {i : Nat}
    (hname : d.name = .link p.name i) : p.links[i]? = some d := by
  have hlink : d ∈ p.links := List.mem_filter.mpr ⟨hd, by simp [hname]⟩
  obtain ⟨j, hj⟩ := List.mem_iff_getElem?.mp hlink
  have heq : j = i := (Name.mk.inj ((h.name_of_getElem? hj).symm.trans hname)).2.1
  exact heq ▸ hj

/-- What is fallen back to ends the run with an error. -/
theorem turn_fallback {d : Procedure} (hd : d ∈ p.procedures) {s : State}
    (hs : d.fallback = some s.current) :
    ∃ reason, p.turn s = .halt (.error reason s.rest s.position) := by
  rcases h.link_or_catchAll hd with hl | ⟨l, -, -, reason, rfl⟩
  · cases hi : d.input.isEmpty with
    | true => simp [h.falls_back d hl, hi] at hs
    | false =>
      have hname : d.name.catchAll = s.current := by simpa [h.falls_back d hl, hi] using hs
      obtain ⟨e, he, hename⟩ := List.mem_map.mp (h.catchAll_mem_names hl hi)
      have hturn := turn_of_mem h.names_nodup he (hname.symm.trans hename.symm)
      rcases h.link_or_catchAll he with hel | ⟨l, -, -, reason, rfl⟩
      · have hcatch := isCatchAll_of_mem_links hel
        simp [hename] at hcatch
      · refine ⟨reason, hturn.trans ?_⟩
        simp [Procedure.turn, takeAll, Guard.test, StackPattern.take, Body.perform]
  · simp at hs

end Program.IsChain
end ParserChain
