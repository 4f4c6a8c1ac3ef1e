import ParserChain.Proofs.Shape

/-! When a compilation fails, and on which step. Only a compile-time traverse around a traverse
stops a chain, and of several the one that comes first in preorder is reported. -/
namespace ParserChain
namespace Combinator

mutual
/-- The steps of a tree, each in front of its inner steps. -/
def preorder : Combinator → List Combinator
  | .literal text => [.literal text]
  | .byteRange ranges modifiers => [.byteRange ranges modifiers]
  | .label inner text => .label inner text :: preorderAll inner
  | .traverse inner f => .traverse inner f :: preorderAll inner
  | .compileTraverse inner f => .compileTraverse inner f :: preorderAll inner

def preorderAll : List Combinator → List Combinator
  | [] => []
  | c :: cs => preorder c ++ preorderAll cs
end

@[simp] lemma preorderAll_append (cs ds : List Combinator) :
    preorderAll (cs ++ ds) = preorderAll cs ++ preorderAll ds := by
  induction cs with
  | nil => rfl
  | cons c cs ih => simp [preorderAll, ih]

mutual
/-- A tree has a traverse where one of its steps is a traverse. -/
theorem hasTraverse_iff : (c : Combinator) →
    (c.hasTraverse = true ↔ ∃ inner f, .traverse inner f ∈ c.preorder)
  | .literal text => by simp [hasTraverse, preorder]
  | .byteRange ranges modifiers => by simp [hasTraverse, preorder]
  | .label inner text => by simpa [hasTraverse, preorder] using anyTraverse_iff inner
  | .traverse inner f => by
    simp only [hasTraverse, preorder, true_iff]
    exact ⟨inner, f, List.mem_cons_self⟩
  | .compileTraverse inner f => by simpa [hasTraverse, preorder] using anyTraverse_iff inner

theorem anyTraverse_iff : (cs : List Combinator) →
    (anyTraverse cs = true ↔ ∃ inner f, .traverse inner f ∈ preorderAll cs)
  | [] => by simp [anyTraverse, preorderAll]
  | c :: cs => by
    simp only [anyTraverse, Bool.or_eq_true, hasTraverse_iff c, anyTraverse_iff cs, preorderAll,
      List.mem_append]
    grind
end

mutual
/-- The tree of a step in a tree lies within that tree. -/
theorem mem_preorder_of_inner {inner : List Combinator} {f : Transform Term} {d : Combinator}
    (hd : d ∈ preorderAll inner) : (c : Combinator) → .compileTraverse inner f ∈ c.preorder →
      d ∈ c.preorder
  | .literal text, h => by simp [preorder] at h
  | .byteRange ranges modifiers, h => by simp [preorder] at h
  | .label body text, h => by
    have hmem : .compileTraverse inner f ∈ preorderAll body := by simpa [preorder] using h
    exact List.mem_cons_of_mem _ (mem_preorderAll_of_inner hd body hmem)
  | .traverse body g, h => by
    have hmem : .compileTraverse inner f ∈ preorderAll body := by simpa [preorder] using h
    exact List.mem_cons_of_mem _ (mem_preorderAll_of_inner hd body hmem)
  | .compileTraverse body g, h => by
    rcases List.mem_cons.mp h with heq | hmem
    · obtain ⟨rfl, rfl⟩ := compileTraverse.inj heq
      exact List.mem_cons_of_mem _ hd
    · exact List.mem_cons_of_mem _ (mem_preorderAll_of_inner hd body hmem)

theorem mem_preorderAll_of_inner {inner : List Combinator} {f : Transform Term} {d : Combinator}
    (hd : d ∈ preorderAll inner) : (cs : List Combinator) →
      .compileTraverse inner f ∈ preorderAll cs → d ∈ preorderAll cs
  | [], h => by simp [preorderAll] at h
  | c :: cs, h => by
    rcases List.mem_append.mp h with h | h
    · exact List.mem_append_left _ (mem_preorder_of_inner hd c h)
    · exact List.mem_append_right _ (mem_preorderAll_of_inner hd cs h)
end

/-- A compile-time traverse with a traverse among its inner steps. -/
def isBlocked : Combinator → Bool
  | .compileTraverse inner _ => anyTraverse inner
  | _ => false

/-- The same, by the steps of the tree. -/
def Blocked (c : Combinator) : Prop :=
  ∃ inner f, c = .compileTraverse inner f ∧ ∃ body g, .traverse body g ∈ preorderAll inner

lemma isBlocked_iff (c : Combinator) : c.isBlocked = true ↔ c.Blocked := by
  cases c with
  | compileTraverse inner f => simp [isBlocked, Blocked, anyTraverse_iff]
  | literal text => simp [isBlocked, Blocked]
  | byteRange ranges modifiers => simp [isBlocked, Blocked]
  | label inner text => simp [isBlocked, Blocked]
  | traverse inner f => simp [isBlocked, Blocked]

instance (c : Combinator) : Decidable c.Blocked := decidable_of_iff _ c.isBlocked_iff

/-- The first step in preorder that is blocked, which is the outermost one of a nest. -/
def firstBlocked? (steps : List Combinator) : Option Combinator :=
  (preorderAll steps).find? isBlocked

lemma firstBlocked?_append (cs ds : List Combinator) :
    firstBlocked? (cs ++ ds) = (firstBlocked? cs).or (firstBlocked? ds) := by
  simp [firstBlocked?]

lemma firstBlocked?_label (inner : List Combinator) (text : String) (cs : List Combinator) :
    firstBlocked? (.label inner text :: cs) = firstBlocked? (inner ++ cs) := by
  simp [firstBlocked?, preorderAll, preorder, isBlocked]

lemma firstBlocked?_traverse (inner : List Combinator) (f : Transform Value)
    (cs : List Combinator) : firstBlocked? (.traverse inner f :: cs) =
      (firstBlocked? inner).or (firstBlocked? cs) := by
  simp [firstBlocked?, preorderAll, preorder, isBlocked]

lemma firstBlocked?_compileTraverse {inner : List Combinator} (f : Transform Term)
    (cs : List Combinator) (h : anyTraverse inner = true) :
    firstBlocked? (.compileTraverse inner f :: cs) = some (.compileTraverse inner f) := by
  simp [firstBlocked?, preorderAll, preorder, isBlocked, h]

lemma firstBlocked?_of_not_anyTraverse {cs : List Combinator} (h : anyTraverse cs = false) :
    firstBlocked? cs = none := by
  rw [firstBlocked?, List.find?_eq_none]
  intro c hc hblocked
  obtain ⟨inner, f, rfl, body, g, hmem⟩ := c.isBlocked_iff.mp hblocked
  -- The tree of a step of the sequence lies within the sequence.
  have hany := (anyTraverse_iff cs).mpr ⟨body, g, mem_preorderAll_of_inner hmem cs hc⟩
  simp [h] at hany

/-- A blocked step is reported exactly when none before it in preorder is blocked. -/
lemma firstBlocked?_eq_some {steps : List Combinator} {c : Combinator} :
    firstBlocked? steps = some c ↔ ∃ before after, preorderAll steps = before ++ c :: after ∧
      c.Blocked ∧ ∀ b ∈ before, ¬ b.Blocked := by
  rw [firstBlocked?, List.find?_eq_some_iff_append]
  simp only [isBlocked_iff, Bool.not_eq_true', ← Bool.not_eq_true]
  tauto

lemma firstBlocked?_eq_none {steps : List Combinator} :
    firstBlocked? steps = none ↔ ∀ c ∈ preorderAll steps, ¬ c.Blocked := by
  simp only [firstBlocked?, List.find?_eq_none, isBlocked_iff]

end Combinator
namespace Draft

/-- The step at which a chain is stuck. -/
def stuckAt? (d : Draft) : Option Combinator :=
  match d.finish with
  | .error c => some c
  | .ok _ => none

@[simp] lemma stuckAt?_opened (step : Nat) : (opened step).stuckAt? = none := rfl

@[simp] lemma stuckAt?_stuck (c : Combinator) : (stuck c).stuckAt? = some c := rfl

@[simp] lemma stuckAt?_after (events : List Event) (d : Draft) :
    (d.after events).stuckAt? = d.stuckAt? := rfl

/-- What comes second can get stuck only where what comes first does not. -/
lemma stuckAt?_andThen {d : Draft} {next : Nat → Draft} {o : Option Combinator}
    (h : ∀ step, (next step).stuckAt? = o) : (d.andThen next).stuckAt? = d.stuckAt?.or o := by
  unfold andThen
  cases hd : d.finish with
  | error c => simp [stuckAt?, hd]
  | ok step => simp [← h step, stuckAt?, hd]

end Draft

/-- A chain gets stuck at the first blocked step of its sequence, and nowhere else. -/
theorem chain_stuckAt? (base : String) (step : Nat) (steps : List Combinator) :
    (chain base step steps).stuckAt? = Combinator.firstBlocked? steps := by
  induction steps using Combinator.chain_induction generalizing step with
  | nil => simp [Combinator.firstBlocked?, Combinator.preorderAll]
  | bound run rest hne hrun hrest ih =>
    rw [chain_append base step hne hrun hrest, Draft.stuckAt?_after, ih,
      Combinator.firstBlocked?_append, Combinator.firstBlocked?_of_not_anyTraverse hrun,
      Option.none_or]
  | label inner text rest hinner ih =>
    rw [chain_label base step inner text rest hinner, Draft.stuckAt?_after, ih,
      Combinator.firstBlocked?_label]
  | traverse inner f rest ihBody ihTail =>
    rw [chain_traverse, Draft.stuckAt?_andThen (o := Combinator.firstBlocked? rest),
      Draft.stuckAt?_after, ihBody, Combinator.firstBlocked?_traverse]
    intro last
    rw [Draft.stuckAt?_after, ihTail]
  | stuck inner f rest hinner =>
    rw [chain_compileTraverse base step inner f rest hinner, Draft.stuckAt?_stuck,
      Combinator.firstBlocked?_compileTraverse f rest hinner]

lemma closedChain_stuckAt? (name : String) (steps : List Combinator) :
    (closedChain name steps).stuckAt? = Combinator.firstBlocked? steps := by
  rw [closedChain, Draft.stuckAt?_andThen (o := none) fun _ => rfl, chain_stuckAt?, Option.or_none]

namespace Config
variable {config : Config} {name : String} {steps : List Combinator}

/-- What becomes of a compilation, by the first blocked step of its sequence. -/
lemma compile_cases (config : Config) (name : String) (steps : List Combinator) :
    config.compile name steps =
      if steps.isEmpty then .error (.emptySequence name)
      else match Combinator.firstBlocked? steps with
        | some c => .error (.unsupportedCombinator name c)
        | none => .ok ((closedChain name steps).program config name) := by
  rw [config.compile_eq, ← closedChain_stuckAt? name steps]
  cases h : (closedChain name steps).finish <;> simp [Draft.stuckAt?, h]

lemma compile_eq_emptySequence {base : String} :
    config.compile name steps = .error (.emptySequence base) ↔ steps = [] ∧ base = name := by
  rw [compile_cases]
  cases steps with
  | nil => simp [eq_comm]
  | cons c cs => cases Combinator.firstBlocked? (c :: cs) <;> simp

lemma compile_eq_unsupported {base : String} {c : Combinator} :
    config.compile name steps = .error (.unsupportedCombinator base c) ↔
      base = name ∧ Combinator.firstBlocked? steps = some c := by
  rw [compile_cases]
  cases steps with
  | nil => simp [Combinator.firstBlocked?, Combinator.preorderAll]
  | cons d ds => cases Combinator.firstBlocked? (d :: ds) <;> simp [eq_comm]

lemma exists_compile (hne : steps ≠ []) (h : Combinator.firstBlocked? steps = none) :
    ∃ p, config.compile name steps = .ok p := by
  rw [compile_cases, h]
  exact ⟨_, if_neg (by simpa using hne)⟩

lemma firstBlocked?_of_compile {p : Program} (hp : config.compile name steps = .ok p) :
    Combinator.firstBlocked? steps = none := by
  rw [compile_cases] at hp
  split at hp
  · simp at hp
  · cases hfirst : Combinator.firstBlocked? steps with
    | none => rfl
    | some c => simp [hfirst] at hp

/-- Links that are reported are among those that make up the chain. -/
lemma mem_procedures_of_event {p : Procedure}
    (hp : .procedure p ∈ (config.compilation name steps).events) :
    p ∈ (closedChain name steps).procedures := by
  refine List.mem_filterMap.mpr ⟨.procedure p, ?_, rfl⟩
  unfold compilation at hp
  cases hemp : steps.isEmpty with
  | true => simp [hemp] at hp
  | false => cases hfin : (closedChain name steps).finish <;> simpa [hemp, hfin] using hp

end Config

/-- The calls of a draft, and the link that it leaves open, have steps up to a bound. This is said
of a draft that is stuck as well. -/
structure Draft.NumberedTo (d : Draft) (bound : Nat) : Prop where
  calls : ∀ p ∈ d.procedures, ∀ target, p.body.target? = some target → target.step ≤ bound
  opened : ∀ last, d.finish = .ok last → last ≤ bound

namespace Draft.NumberedTo
variable {d : Draft} {bound : Nat}

lemma mono {wider : Nat} (h : d.NumberedTo bound) (hle : bound ≤ wider) : d.NumberedTo wider :=
  ⟨fun p hp target ht => Nat.le_trans (h.calls p hp target ht) hle,
    fun last hlast => Nat.le_trans (h.opened last hlast) hle⟩

lemma after (h : d.NumberedTo bound) {events : List Event}
    (he : ∀ p ∈ events.filterMap Event.procedure?, ∀ target, p.body.target? = some target →
      target.step ≤ bound) : (d.after events).NumberedTo bound := by
  refine ⟨?_, h.opened⟩
  intro p hp
  rw [Draft.procedures_after, List.mem_append] at hp
  rcases hp with hp | hp
  · exact he p hp
  · exact h.calls p hp

lemma andThen {mid : Nat} {next : Nat → Draft} (h : d.NumberedTo mid) (hle : mid ≤ bound)
    (hnext : ∀ last ≤ mid, (next last).NumberedTo bound) : (d.andThen next).NumberedTo bound := by
  have hd := h.mono hle
  cases hfin : d.finish with
  | error c => simpa [Draft.andThen, hfin] using hd
  | ok last =>
    rw [andThen_of_ok hfin]
    exact (hnext last (h.opened last hfin)).after hd.calls

end Draft.NumberedTo

lemma Link.step_of_target {base : String} {step : Nat} {l : Link} {p : Procedure} {target : Name}
    (hp : p ∈ l.block base step) (ht : p.body.target? = some target) : target.step = step + 1 := by
  rw [block_eq, Procedure.withCatchAll] at hp
  rcases List.mem_cons.mp hp with rfl | hp
  · rw [target_procedure] at ht
    exact (Option.some.inj ht) ▸ rfl
  · cases hi : (l.procedure base step).input.isEmpty <;> simp [hi] at hp
    simp [hp] at ht

open Combinator in
/-- A chain takes at most two steps for each step of its sequence. -/
theorem chain_numberedTo (base : String) (step : Nat) (steps : List Combinator) :
    (chain base step steps).NumberedTo (step + 2 * nodesAll steps) := by
  induction steps using Combinator.chain_induction generalizing step with
  | nil => exact ⟨by simp [Draft.opened, Draft.procedures], by simp [Draft.opened, nodesAll]⟩
  | bound run rest hne hrun hrest ih =>
    obtain ⟨c, cs, rfl⟩ := List.exists_cons_of_ne_nil hne
    have hpos := c.nodes_pos
    rw [chain_append base step hne hrun hrest]
    refine ((ih (step + 1)).mono ?_).after ?_
    · simp only [nodesAll_append, nodesAll]
      omega
    · intro p hp target ht
      rw [Segment.procedures_events] at hp
      rw [Link.step_of_target hp ht]
      simp only [nodesAll_append, nodesAll]
      omega
  | label inner text rest hinner ih =>
    rw [chain_label base step inner text rest hinner]
    refine ((ih step).mono ?_).after (by simp [Event.procedure?, List.filterMap_cons])
    simp only [nodesAll_append, nodesAll, nodes]
    omega
  | traverse inner f rest ihBody ihTail =>
    rw [chain_traverse]
    have hbody : ((chain base (step + 1) inner).after [.unbound (.link base step) "traverse",
        .procedure (enterLink base step)]).NumberedTo (step + 1 + 2 * nodesAll inner) := by
      refine (ihBody (step + 1)).after ?_
      intro p hp target ht
      have hlink := Link.step_of_target (l := .enter) hp ht
      omega
    refine hbody.andThen (by simp only [nodesAll, nodes]; omega) ?_
    intro last hlast
    refine ((ihTail (last + 1)).mono ?_).after ?_
    · simp only [nodesAll, nodes]
      omega
    · intro p hp target ht
      have hlink := Link.step_of_target (l := .exit f) hp ht
      simp only [nodesAll, nodes]
      omega
  | stuck inner f rest hinner =>
    rw [chain_compileTraverse base step inner f rest hinner]
    exact ⟨by simp [Draft.stuck, Draft.procedures], by simp [Draft.stuck]⟩

mutual
lemma Combinator.varsAll_leaves_le_nodes : (c : Combinator) → Leaf.varsAll c.leaves ≤ c.nodes
  | .literal text => by simp [leaves, Leaf.varsAll, Leaf.vars]
  | .byteRange ranges modifiers => by simp [leaves, Leaf.varsAll, Leaf.vars, nodes]
  | .label inner text => Nat.le_add_left_of_le (varsAll_leavesAll_le_nodesAll inner)
  | .traverse inner f => Nat.le_add_left_of_le (varsAll_leavesAll_le_nodesAll inner)
  | .compileTraverse inner f => Nat.le_add_left_of_le (varsAll_leavesAll_le_nodesAll inner)

lemma Combinator.varsAll_leavesAll_le_nodesAll : (cs : List Combinator) →
    Leaf.varsAll (leavesAll cs) ≤ nodesAll cs
  | [] => Nat.le_refl 0
  | c :: cs => by
    rw [leavesAll, Leaf.varsAll_append, nodesAll]
    exact Nat.add_le_add (varsAll_leaves_le_nodes c) (varsAll_leavesAll_le_nodesAll cs)
end

lemma closedChain_numberedTo (name : String) (steps : List Combinator) :
    (closedChain name steps).NumberedTo (2 * Combinator.nodesAll steps) := by
  have h := chain_numberedTo name 0 steps
  rw [Nat.zero_add] at h
  refine h.andThen (Nat.le_refl _) ?_
  intro last hlast
  refine ⟨?_, by simpa using hlast⟩
  simp [Draft.procedures, Event.procedure?, successLink]

open Combinator in
/-- A compilation fails on an empty sequence, and on one that has a compile-time traverse around a
traverse. The first of these in preorder is the one that is reported. In every other case the
compilation succeeds. No counter overflows on the way. -/
theorem compile_refuses_first_blocked (config : Config) (name : String) (steps : List Combinator)
    (hnodes : nodesAll steps < 2147483648) :
    (∀ base, config.compile name steps = .error (.emptySequence base) ↔
      steps = [] ∧ base = name) ∧
    ((∃ base c, config.compile name steps = .error (.unsupportedCombinator base c)) ↔
      steps ≠ [] ∧ ∃ c ∈ preorderAll steps, c.Blocked) ∧
    (∀ base c, config.compile name steps = .error (.unsupportedCombinator base c) ↔
      base = name ∧ ∃ before after, preorderAll steps = before ++ c :: after ∧ c.Blocked ∧
        ∀ b ∈ before, ¬ b.Blocked) ∧
    (steps ≠ [] → (∀ c ∈ preorderAll steps, ¬ c.Blocked) →
      ∃ p, config.compile name steps = .ok p) ∧
    (∀ p, .procedure p ∈ (config.compilation name steps).events →
      ∀ target, p.body.target? = some target → target.step < Counter.largest) ∧
    ∀ rest, nodesAll rest ≤ nodesAll steps →
      Segment.extract 0 rest = .ok (Segment.fuse 0 rest) := by
  refine ⟨fun base => Config.compile_eq_emptySequence, ?_, ?_, ?_, ?_, ?_⟩
  · simp only [Config.compile_eq_unsupported]
    constructor
    · rintro ⟨base, c, -, hfirst⟩
      obtain ⟨before, after, heq, hblocked, -⟩ := firstBlocked?_eq_some.mp hfirst
      refine ⟨?_, c, by simp [heq], hblocked⟩
      rintro rfl
      simp [preorderAll] at heq
    · rintro ⟨-, c, hc, hblocked⟩
      cases hfirst : firstBlocked? steps with
      | none => exact (firstBlocked?_eq_none.mp hfirst c hc hblocked).elim
      | some d => exact ⟨name, d, rfl, rfl⟩
  · intro base c
    rw [Config.compile_eq_unsupported, firstBlocked?_eq_some]
  · exact fun hne hfree => Config.exists_compile hne (firstBlocked?_eq_none.mpr hfree)
  · intro p hp target ht
    have hstep := (closedChain_numberedTo name steps).calls p (Config.mem_procedures_of_event hp)
      target ht
    unfold Counter.largest
    omega
  · intro rest hrest
    have hunits := varsAll_leavesAll_le_nodesAll rest
    refine Segment.extract_eq ?_
    rw [UInt32.toNat_zero]
    omega

namespace Combinator

/-- A compile-time traverse around another one, which is around a traverse. -/
def nest : Combinator :=
  .compileTraverse [byte, .compileTraverse [.traverse [] ⟨"reverse", List.reverse⟩] ⟨"same", id⟩]
    ⟨"reverse", List.reverse⟩

/-- A nest within a traverse within a label, with another one behind it. -/
def nested : List Combinator :=
  [.literal "a", .label [byte, .traverse [.literal "b", nest] ⟨"reverse", List.reverse⟩] "x",
    .compileTraverse [nest] ⟨"outer", id⟩]

/-- The outermost step of the nest that comes first is the one that is reported. -/
theorem compile_refuses_first_blocked_nested : nodesAll nested < 2147483648 ∧
    Config.compile {} "p" nested = .error (.unsupportedCombinator "p" nest) := by
  have hnodes : nodesAll nested < 2147483648 := by decide
  obtain ⟨-, -, hreported, -⟩ := compile_refuses_first_blocked {} "p" nested hnodes
  have hpreorder : preorderAll nested = (preorderAll nested).take 5 ++
      nest :: (preorderAll nested).drop 6 := rfl
  exact ⟨hnodes, (hreported "p" nest).mpr
    ⟨rfl, (preorderAll nested).take 5, (preorderAll nested).drop 6, hpreorder, by decide,
      by decide⟩⟩

end Combinator
end ParserChain
