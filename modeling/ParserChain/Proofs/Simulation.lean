import ParserChain.Proofs.Walk

/-! The program of links follows the link reader. Over the derivation of the links from the steps:
a run of steps takes one turn, and a traverse wraps the turns of its inner steps between a turn
that saves the accumulator and one that takes it back. -/
namespace ParserChain

/-- What steps leave behind after leaves with these values: their outputs in front of the
accumulator, and the stack as it was. -/
def Combinator.Adds (steps : List Combinator) (acc : List Value) (stack : List (List Value))
    (vs : List Value) (acc' : List Value) (stack' : List (List Value)) : Prop :=
  stack' = stack ∧ ∃ values, acc' = values.reverse ++ acc ∧
    ∀ meaning : Transform Term → List Value → List Value,
      (∀ f ∈ rewritesAll steps, f.ActsLike (meaning f)) → values = evalAll meaning steps vs

namespace Combinator

lemma Adds.append {cs ds : List Combinator} {acc acc' acc'' vs ws : List Value}
    {stack stack' stack'' : List (List Value)} (hc : Adds cs acc stack vs acc' stack')
    (hd : Adds ds acc' stack' ws acc'' stack'') (hlen : vs.length = (leavesAll cs).length) :
    Adds (cs ++ ds) acc stack (vs ++ ws) acc'' stack'' := by
  obtain ⟨rfl, values, rfl, hvalues⟩ := hc
  obtain ⟨rfl, others, rfl, hothers⟩ := hd
  refine ⟨rfl, values ++ others, by simp, ?_⟩
  intro meaning hf
  simp only [rewritesAll_append, List.mem_append, or_imp, forall_and] at hf
  rw [evalAll_append meaning cs ds vs ws hlen, ← hvalues meaning hf.1, ← hothers meaning hf.2]

/-- A label adds what its inner steps add. -/
lemma Adds.label {inner rest : List Combinator} {acc acc' vs : List Value}
    {stack stack' : List (List Value)} (h : Adds (inner ++ rest) acc stack vs acc' stack')
    (hlen : vs.length = (leavesAll (inner ++ rest)).length) (text : String) :
    Adds (.label inner text :: rest) acc stack vs acc' stack' := by
  obtain ⟨rfl, values, rfl, hvalues⟩ := h
  refine ⟨rfl, values, rfl, ?_⟩
  intro meaning hf
  have hinner : (vs.take (leavesAll inner).length).length = (leavesAll inner).length := by
    rw [leavesAll_append, List.length_append] at hlen
    rw [List.length_take]
    omega
  rw [hvalues meaning (by rw [rewritesAll_append]; exact hf),
    ← List.take_append_drop (leavesAll inner).length vs, evalAll_append meaning _ _ _ _ hinner,
    List.take_append_drop]
  rfl

/-- Between its two links, a traverse transforms what its inner steps add to nothing. -/
lemma Adds.traverse {inner : List Combinator} {acc acc' vs : List Value}
    {stack stack' : List (List Value)} (h : Adds inner [] stack vs acc' stack')
    (hlen : vs.length = (leavesAll inner).length) (f : Transform Value)
    (frames : List (List Value)) :
    Adds [.traverse inner f] acc frames vs ((f.apply acc'.reverse).reverse ++ acc) frames := by
  obtain ⟨-, values, rfl, hvalues⟩ := h
  refine ⟨rfl, f.apply values, by simp, ?_⟩
  intro meaning hf
  rw [hvalues meaning (by simpa [rewritesAll, rewrites] using hf)]
  simp [evalAll, eval, leaves, ← hlen]

end Combinator

section
variable {p : Program} {base : String} {c : Cursor}

open Combinator in
lemma Program.follows_bound (hnames : p.names.Nodup) {run : List Combinator}
    (hrun : anyTraverse run = false) (hgiven : ∀ f ∈ rewritesAll run, f.EmitsGiven)
    (hmem : (Link.bound run).procedure base c.index ∈ p.procedures) (acc : List Value)
    (stack : List (List Value)) :
    p.Follows base c acc stack (Adds run acc stack) ((Link.bound run).read c) := by
  have hturn := p.turn_of_mem hnames hmem (s := c.state base acc stack) rfl
  unfold Link.read
  cases hmatch : Leaf.match? (Link.bound run).leaves c.rest with
  | none =>
    rw [Link.turn_bound_refused hrun base hmatch] at hturn
    exact ⟨acc, stack, .one rfl hturn⟩
  | some taken =>
    obtain ⟨vs, rest⟩ := taken
    obtain ⟨values, hvalues, hmatched⟩ :=
      Link.turn_bound_matched hrun hgiven base hmatch acc stack
    rw [hmatched] at hturn
    cases hmove : (Movement.ofDeltas ((Link.bound run).leaves.map Leaf.delta)).move? c.position with
    | none =>
      rw [hmove] at hturn
      exact ⟨c.index, _, .stay _, rfl, hturn⟩
    | some position =>
      rw [hmove] at hturn
      exact ⟨_, stack, ⟨rfl, values, rfl, hvalues⟩, .one rfl hturn⟩

open Combinator in
/-- Behind the link that saves the accumulator, the inner steps of a traverse start from nothing. -/
lemma Program.follows_enter (hnames : p.names.Nodup)
    (hmem : Link.enter.procedure base c.index ∈ p.procedures) {inner : List Combinator}
    {ls : List Link} (hleaves : Link.leavesAll ls = leavesAll inner) {acc : List Value}
    {stack : List (List Value)}
    (hbody : p.Follows base ⟨c.rest, c.position, c.index + 1⟩ [] (acc :: stack)
      (Adds inner [] (acc :: stack)) (Link.readAll ls ⟨c.rest, c.position, c.index + 1⟩)) :
    p.Follows base c acc stack (fun vs acc' stack' =>
      vs.length = (leavesAll inner).length ∧ Adds inner [] (acc :: stack) vs acc' stack')
      (Link.readAll (.enter :: ls) c) := by
  have hturn := p.turn_of_mem hnames hmem (s := c.state base acc stack) rfl
  rw [Link.turn_enter] at hturn
  have hlink : p.Follows base c acc stack (fun vs acc' stack' => vs = [] ∧ acc' = [] ∧
      stack' = acc :: stack) (.read [] ⟨c.rest, c.position, c.index + 1⟩) :=
    ⟨[], acc :: stack, ⟨rfl, rfl, rfl⟩, .one rfl hturn⟩
  rw [Link.readAll, Link.read_of_leaves_nil rfl]
  apply hlink.andThen
  intro vs next acc' stack' hread hyields
  obtain ⟨rfl, rfl, rfl⟩ := hyields
  cases hread
  apply hbody.mono
  intro ws behind acc' stack' hread hadds
  exact ⟨by rw [List.nil_append, Link.length_of_readAll hread, hleaves], hadds⟩

open Combinator in
/-- The link that merges transforms the accumulator and puts it in front of the saved frame. -/
lemma Program.follows_exit (hnames : p.names.Nodup) {f : Transform Value}
    (hmem : (Link.exit f).procedure base c.index ∈ p.procedures) {rest : List Combinator}
    {ms : List Link} {acc frame : List Value} {stack : List (List Value)}
    (htail : p.Follows base ⟨c.rest, c.position, c.index + 1⟩
      ((f.apply acc.reverse).reverse ++ frame) stack
      (Adds rest ((f.apply acc.reverse).reverse ++ frame) stack)
      (Link.readAll ms ⟨c.rest, c.position, c.index + 1⟩)) :
    p.Follows base c acc (frame :: stack)
      (Adds rest ((f.apply acc.reverse).reverse ++ frame) stack)
      (Link.readAll (.exit f :: ms) c) := by
  have hturn := p.turn_of_mem hnames hmem (s := c.state base acc (frame :: stack)) rfl
  rw [Link.turn_exit] at hturn
  have hlink : p.Follows base c acc (frame :: stack) (fun vs acc' stack' => vs = [] ∧
      acc' = (f.apply acc.reverse).reverse ++ frame ∧ stack' = stack)
      (.read [] ⟨c.rest, c.position, c.index + 1⟩) :=
    ⟨_, stack, ⟨rfl, rfl, rfl⟩, .one rfl hturn⟩
  rw [Link.readAll, Link.read_of_leaves_nil rfl]
  apply hlink.andThen
  intro vs next acc' stack' hread hyields
  obtain ⟨rfl, rfl, rfl⟩ := hyields
  cases hread
  exact htail

open Combinator in
/-- Entered at the first link of some steps, a program that holds their links follows the link
reader, and leaves behind what the steps add. -/
theorem Expands.follows {steps : List Combinator} {links : List Link} (h : Expands steps links)
    (hnames : p.names.Nodup) (hgiven : ∀ f ∈ rewritesAll steps, f.EmitsGiven)
    (hmem : Link.layout base c.index links ⊆ p.procedures) (acc : List Value)
    (stack : List (List Value)) :
    p.Follows base c acc stack (Adds steps acc stack) (Link.readAll links c) := by
  induction h generalizing c acc stack with
  | nil => exact ⟨acc, stack, ⟨rfl, [], rfl, fun _ _ => rfl⟩, .stay _⟩
  | @bound run rest links hne hrun hrest tail ih =>
    simp only [rewritesAll_append, List.mem_append, or_imp, forall_and] at hgiven
    rw [Link.layout, List.append_subset] at hmem
    have hlink := Program.follows_bound hnames hrun hgiven.1 (hmem.1 List.mem_cons_self) acc stack
    apply hlink.andThen
    intro vs next acc' stack' hread hadds
    obtain ⟨hmatch, hindex⟩ := Link.read_eq_read hread
    rw [← hindex] at hmem
    apply (ih hgiven.2 hmem.2 acc' stack').mono
    intro ws behind acc'' stack'' _ hadds'
    exact hadds.append hadds' (Leaf.length_of_match? hmatch)
  | @label inner rest text links hinner body ih =>
    rw [rewritesAll, rewrites, ← rewritesAll_append] at hgiven
    apply (ih hgiven hmem acc stack).mono
    intro vs next acc' stack' hread hadds
    exact hadds.label (by rw [← body.leavesAll_eq, Link.length_of_readAll hread]) text
  | @traverse inner rest f ls ms body tail ihBody ihTail =>
    simp only [rewritesAll, rewrites, List.mem_append, or_imp, forall_and] at hgiven
    rw [Link.layout_append, Link.layout, Link.layout] at hmem
    simp only [List.append_subset, List.length_cons] at hmem
    obtain ⟨⟨henter, hinner⟩, hexit, htail⟩ := hmem
    have hbody := Program.follows_enter hnames (henter List.mem_cons_self) body.leavesAll_eq
      (ihBody (c := ⟨c.rest, c.position, c.index + 1⟩) hgiven.1 hinner [] (acc :: stack))
    rw [Link.readAll_append]
    apply hbody.andThen
    intro vs next acc' stack' hread hyields
    obtain ⟨hlen, hadds⟩ := hyields
    obtain rfl : stack' = acc :: stack := hadds.1
    have hindex := Link.index_of_readAll hread
    rw [List.length_cons] at hindex
    rw [← hindex] at hexit htail
    have hrest := Program.follows_exit hnames (hexit List.mem_cons_self)
      (ihTail (c := ⟨next.rest, next.position, next.index + 1⟩) hgiven.2 htail
        ((f.apply acc'.reverse).reverse ++ acc) stack)
    apply hrest.mono
    intro ws behind acc'' stack'' _ hadds'
    have htraverse : Adds [.traverse inner f] acc stack vs _ stack := hadds.traverse hlen f stack
    exact htraverse.append hadds' (by simpa [leavesAll, leaves] using hlen)

end

lemma Link.catchAll_mem_layout (base : String) (step : Nat) {ls : List Link} {i : Nat}
    {run : List Combinator} (hrun : Combinator.anyTraverse run = false)
    (h : ls[i]? = some (bound run)) (hleaves : (bound run).leaves ≠ []) :
    (Segment.fuse 0 run).catchAll base (step + i) ∈ layout base step ls := by
  induction ls generalizing step i with
  | nil => simp at h
  | cons l ls ih =>
    rw [layout, List.mem_append]
    cases i with
    | zero =>
      obtain rfl : l = bound run := by simpa using h
      have hinput : (Segment.fuse 0 run).matchesInput = true := by
        simpa [matchesInput_bound hrun] using hleaves
      exact .inl (by simp [block, catchAll?, hinput])
    | succ i =>
      have htail := ih (step + 1) (i := i) (by simpa using h)
      exact .inr (by rwa [Nat.add_right_comm] at htail)

section
variable {steps : List Combinator} {links : List Link} (h : Expands steps links)
  (hgiven : ∀ f ∈ Combinator.rewritesAll steps, f.EmitsGiven) (name : String) (start : Position)
  (input : List UInt8)

lemma Program.length_lt_procedures (name : String) (start : Position) (links : List Link) :
    links.length < (ofLinks name start links).procedures.length := by
  have hlen := (isChain_ofLinks name start links).length_links
  have hle := List.length_filter_le (!·.name.isCatchAll) (ofLinks name start links).procedures
  rw [Program.links] at hlen
  omega

include h hgiven

lemma Expands.follows_initial : (Program.ofLinks name start links).Follows name ⟨input, start, 0⟩
    [] [] (Combinator.Adds steps [] []) (Link.readAll links ⟨input, start, 0⟩) :=
  h.follows (Program.isChain_ofLinks name start links).names_nodup hgiven
    (List.subset_append_left _ _) [] []

variable {fuel : Nat} (hfuel : (Program.ofLinks name start links).procedures.length ≤ fuel)

include hfuel

/-- Where the link reader gets through, the run goes through all links and succeeds. -/
theorem Expands.run_of_read {vs : List Value} {next : Cursor}
    (hread : Link.readAll links ⟨input, start, 0⟩ = .read vs next) :
    ∃ values, (∀ meaning : Transform Term → List Value → List Value,
        (∀ f ∈ Combinator.rewritesAll steps, f.ActsLike (meaning f)) →
          values = Combinator.evalAll meaning steps vs) ∧
      ((Program.ofLinks name start links).run fuel input).ending =
        .done (.ok values next.rest next.position) ∧
      ((Program.ofLinks name start links).run fuel input).visits.map (·.name) =
        Name.links name (links.length + 1) := by
  have hfollows := h.follows_initial hgiven name start input
  have hnames := (Program.isChain_ofLinks name start links).names_nodup
  have hindex : next.index = links.length := by
    simpa using Link.index_of_readAll hread
  rw [hread] at hfollows
  obtain ⟨acc', stack', ⟨rfl, values, rfl, hvalues⟩, hpass⟩ := hfollows
  rw [hindex] at hpass
  have hturn := Program.turn_of_mem hnames (d := successLink name next.index)
    (by rw [hindex]; exact List.mem_append_right _ List.mem_cons_self)
    (s := next.state name (values.reverse ++ []) []) rfl
  rw [turn_successLink] at hturn
  have hlt := Program.length_lt_procedures name start links
  obtain ⟨hending, hvisits⟩ := hpass.run_of_halt hturn (Nat.lt_of_lt_of_le hlt hfuel)
  refine ⟨values, hvalues, ?_, ?_⟩
  · rw [List.append_nil, List.reverse_reverse] at hending
    exact hending
  · rw [Name.links_succ, ← hindex]
    rw [← hindex] at hvisits
    exact hvisits

/-- Where the link reader stops, the run ends in the catch-all of the link there, which sees what
the link was given. -/
theorem Expands.run_of_failed {place : Cursor}
    (hread : Link.readAll links ⟨input, start, 0⟩ = .failed place) :
    ∃ run, links[place.index]? = some (.bound run) ∧
      ((Program.ofLinks name start links).run fuel input).ending =
        .done (.error (Combinator.expected run) place.rest place.position) ∧
      ((Program.ofLinks name start links).run fuel input).visits.map (·.name) =
        Name.links name (place.index + 1) ++ [(Name.link name place.index).catchAll] := by
  have hfollows := h.follows_initial hgiven name start input
  have hnames := (Program.isChain_ofLinks name start links).names_nodup
  obtain ⟨i, run, hrun, hleaves, hindex⟩ := Link.bound_of_readAll_failed hread
  rw [Nat.zero_add] at hindex
  subst hindex
  have htrav := h.anyTraverse_of_mem (List.mem_of_getElem? hrun)
  have hcatch := Link.catchAll_mem_layout name 0 htrav hrun hleaves
  rw [Nat.zero_add] at hcatch
  rw [hread] at hfollows
  obtain ⟨acc', stack', hpass⟩ := hfollows
  have hturn := Program.turn_of_mem hnames (List.mem_append_left _ hcatch)
    (s := place.refused name acc' stack') rfl
  rw [turn_catchAll place htrav] at hturn
  have hlt := Program.length_lt_procedures name start links
  have hplace := (List.getElem?_eq_some_iff.mp hrun).1
  exact ⟨run, hrun, hpass.run_of_halt hturn (by omega)⟩

/-- Where the link reader leaves the range of the counters, so does the run. -/
theorem Expands.run_of_overflow
    (hread : Link.readAll links ⟨input, start, 0⟩ = .overflow) :
    ((Program.ofLinks name start links).run fuel input).ending = .fault .counterOverflow := by
  have hfollows := h.follows_initial hgiven name start input
  rw [hread] at hfollows
  obtain ⟨n, t, hpass, hcurrent, hturn⟩ := hfollows
  have hlt := Program.length_lt_procedures name start links
  have hmem := Program.mem_names_of_turn (p := .ofLinks name start links) (s := t)
    (by simp [hturn])
  have hn := (Program.isChain_ofLinks name start links).le_of_link_mem (hcurrent ▸ hmem)
  exact hpass.ending_of_fault hturn (by omega)

end
end ParserChain
