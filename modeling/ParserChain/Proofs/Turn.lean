import ParserChain.Proofs.LinkReader
import ParserChain.Proofs.Shape

/-! One turn of each kind of link. A link that matches a run does what the link reader does: it goes
on, falls back on its catch-all, or leaves the range of the counters. No other link refuses. -/
namespace ParserChain

/-- The state in which the link of that index is entered. -/
def Cursor.state (c : Cursor) (base : String) (acc : List Value) (stack : List (List Value)) :
    State :=
  ⟨.link base c.index, c.rest, acc, stack, c.position⟩

/-- The state in which the catch-all of that link is entered. -/
def Cursor.refused (c : Cursor) (base : String) (acc : List Value) (stack : List (List Value)) :
    State :=
  ⟨(Name.link base c.index).catchAll, c.rest, acc, stack, c.position⟩

lemma AccUpdate.apply_ofTerms {bound : Bindings} {terms : List Term} {values : List Value}
    (h : Term.resolveAll bound.value? terms = some values) (saved : Option (List Value))
    (acc : List Value) : (ofTerms terms).apply bound saved acc = .ok (values ++ acc) := by
  cases terms with
  | nil =>
    obtain rfl : [] = values := by simpa [Term.resolveAll] using h
    rfl
  | cons t ts => simp [ofTerms, apply, h]

namespace Program

/-- Where names are unique, a name is resolved to its procedure. -/
lemma resolve?_of_mem {p : Program} (hnames : p.names.Nodup) {d : Procedure}
    (hd : d ∈ p.procedures) : p.resolve? d.name = some d := by
  unfold resolve?
  rw [List.find?_eq_some_iff_append]
  refine ⟨by simp, ?_⟩
  obtain ⟨before, behind, hp⟩ := List.append_of_mem hd
  refine ⟨behind.reverse, before.reverse, by simp [hp], ?_⟩
  intro e he
  have hne : e.name ≠ d.name := by
    intro heq
    rw [names, hp, List.map_append, List.map_cons, List.nodup_append, List.nodup_cons] at hnames
    exact hnames.2.1.1 (heq ▸ List.mem_map_of_mem (List.mem_reverse.mp he))
  simpa using hne

lemma turn_of_mem {p : Program} (hnames : p.names.Nodup) {d : Procedure} (hd : d ∈ p.procedures)
    {s : State} (hs : s.current = d.name) : p.turn s = d.turn s := by
  rw [turn, hs, resolve?_of_mem hnames hd]

lemma mem_names_of_turn {p : Program} {s : State}
    (h : p.turn s ≠ .fault (.undefinedProcedure s.current)) : s.current ∈ p.names := by
  unfold turn at h
  cases hd : p.resolve? s.current with
  | none => simp [hd] at h
  | some d =>
    have hmem := List.mem_of_find?_eq_some hd
    have hname := List.find?_some hd
    simp only [beq_iff_eq] at hname
    exact hname ▸ List.mem_map_of_mem (List.mem_reverse.mp hmem)

end Program

namespace Link

lemma matchesInput_bound {run : List Combinator} (hrun : Combinator.anyTraverse run = false) :
    (Segment.fuse 0 run).matchesInput = !(bound run).leaves.isEmpty := by
  rw [Segment.matchesInput, (Segment.reads_fuse 0 run hrun).inputs, leaves]
  cases Combinator.leavesAll run <;> rfl

/-- A run that does not match hands over to its catch-all. -/
lemma turn_bound_refused {run : List Combinator} (hrun : Combinator.anyTraverse run = false)
    (base : String) {c : Cursor} (h : Leaf.match? (bound run).leaves c.rest = none)
    (acc : List Value) (stack : List (List Value)) :
    ((bound run).procedure base c.index).turn (c.state base acc stack) =
      .next (c.refused base acc stack) := by
  have hreads := Segment.reads_fuse 0 run hrun
  have hinput : (Segment.fuse 0 run).matchesInput = true := by
    rw [matchesInput_bound hrun]
    cases hl : (bound run).leaves with
    | nil => simp [hl] at h
    | cons l ls => rfl
  have hrefuse : ((bound run).procedure base c.index).refuse (c.state base acc stack) =
      .next (c.refused base acc stack) := by
    simp [procedure, Segment.link, Procedure.refuse, hinput, Cursor.state, Cursor.refused]
  rw [← hrefuse]
  simp only [procedure, Segment.link, Procedure.turn, hreads.inputs, hreads.guards, Cursor.state]
  cases ht : Leaf.takeAll? (bound run).leaves c.rest with
  | none =>
    have htake := Leaf.takeAll_patterns_of_none ht 0 []
    rw [leaves] at htake
    rw [htake]
  | some taken =>
    obtain ⟨vs, rest⟩ := taken
    obtain ⟨b, htake, -, -, hterms⟩ := Leaf.takeAll_patterns_of_some ht 0 Bindings.words_nil
    have haccepts : Leaf.acceptsAll (bound run).leaves vs = false := by
      simpa [Leaf.match?, ht, Option.filter] using h
    rw [leaves] at htake hterms haccepts
    rw [htake]
    simp [Leaf.test_guards hterms, haccepts]

/-- A run that matches puts its outputs in front and moves the position, if it can. -/
lemma turn_bound_matched {run : List Combinator} (hrun : Combinator.anyTraverse run = false)
    (hgiven : ∀ f ∈ Combinator.rewritesAll run, f.EmitsGiven) (base : String) {c : Cursor}
    {vs : List Value} {rest : List UInt8}
    (h : Leaf.match? (bound run).leaves c.rest = some (vs, rest))
    (acc : List Value) (stack : List (List Value)) :
    ∃ values, (∀ meaning : Transform Term → List Value → List Value,
        (∀ f ∈ Combinator.rewritesAll run, f.ActsLike (meaning f)) →
          values = Combinator.evalAll meaning run vs) ∧
      ((bound run).procedure base c.index).turn (c.state base acc stack) =
        match (Movement.ofDeltas ((bound run).leaves.map Leaf.delta)).move? c.position with
        | none => .fault .counterOverflow
        | some position => .next
          (Cursor.state ⟨rest, position, c.index + 1⟩ base (values.reverse ++ acc) stack) := by
  have hreads := Segment.reads_fuse 0 run hrun
  obtain ⟨ht, haccepts⟩ : Leaf.takeAll? (bound run).leaves c.rest = some (vs, rest) ∧
      Leaf.acceptsAll (bound run).leaves vs = true := by
    simpa [Leaf.match?, Option.filter_eq_some_iff] using h
  obtain ⟨b, htake, hwords, -, hterms⟩ := Leaf.takeAll_patterns_of_some ht 0 Bindings.words_nil
  obtain ⟨values, hvalues, hmeaning⟩ := Segment.exists_resolve_fuse hwords hgiven hrun hterms
  refine ⟨values, hmeaning, ?_⟩
  have hacc := AccUpdate.apply_ofTerms hvalues none acc
  rw [leaves] at htake haccepts hterms ⊢
  simp only [procedure, Segment.link, Procedure.turn, hreads.inputs, hreads.guards, hreads.deltas,
    Cursor.state]
  rw [htake]
  have htest : (Guard.allOf (Leaf.guards 0 (Combinator.leavesAll run))).test b.value? = true := by
    rw [Guard.test_allOf, Leaf.test_guards hterms, haccepts]
  cases hmove : (Movement.ofDeltas ((Combinator.leavesAll run).map Leaf.delta)).move? c.position <;>
    simp [htest, StackPattern.take, Body.perform, hacc, StackUpdate.apply, hmove]

lemma turn_enter {base : String} (c : Cursor) (acc : List Value) (stack : List (List Value)) :
    (enter.procedure base c.index).turn (c.state base acc stack) =
      .next (Cursor.state ⟨c.rest, c.position, c.index + 1⟩ base [] (acc :: stack)) := by
  simp [procedure, enterLink, Procedure.turn, takeAll, Guard.test, StackPattern.take, Body.perform,
    AccUpdate.apply, StackUpdate.apply, Cursor.state]

lemma turn_exit {base : String} (f : Transform Value) (c : Cursor) (acc frame : List Value)
    (stack : List (List Value)) :
    ((exit f).procedure base c.index).turn (c.state base acc (frame :: stack)) =
      .next (Cursor.state ⟨c.rest, c.position, c.index + 1⟩ base
        ((f.apply acc.reverse).reverse ++ frame) stack) := by
  simp [procedure, exitLink, Procedure.turn, takeAll, Guard.test, StackPattern.take, Body.perform,
    AccUpdate.apply, StackUpdate.apply, Cursor.state]

end Link

lemma turn_successLink {base : String} (c : Cursor) (acc : List Value)
    (stack : List (List Value)) :
    (successLink base c.index).turn (c.state base acc stack) =
      .halt (.ok acc.reverse c.rest c.position) := by
  simp [successLink, Procedure.turn, takeAll, Guard.test, StackPattern.take, Body.perform,
    Cursor.state]

lemma turn_catchAll {base : String} {run : List Combinator} (c : Cursor)
    (hrun : Combinator.anyTraverse run = false) (acc : List Value) (stack : List (List Value)) :
    ((Segment.fuse 0 run).catchAll base c.index).turn (c.refused base acc stack) =
      .halt (.error (Combinator.expected run) c.rest c.position) := by
  have hlen := (Segment.consumed_fuse_eq_length 0 run).mpr hrun
  have hused : (Segment.fuse 0 run).used = run := by
    rw [Segment.used_fuse, hlen, List.take_length]
  simp [Segment.catchAll, Procedure.turn, takeAll, Guard.test, StackPattern.take, Body.perform,
    Cursor.refused, hused]

end ParserChain
