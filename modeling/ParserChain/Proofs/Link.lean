import ParserChain.Compilation
import ParserChain.Proofs.Leaf

/-! The links of a chain and the steps that they come from. A sequence expands into links by three
rules, and its program is the links in order, numbered from zero and closed by the success. -/
namespace ParserChain

/-- A link, by what it was built from. -/
inductive Link
  /-- Matches a run of steps at once. -/
  | bound (run : List Combinator)
  | enter
  | exit (f : Transform Value)

namespace Link

def procedure (base : String) (step : Nat) : Link → Procedure
  | bound run => (Segment.fuse 0 run).link base step
  | enter => enterLink base step
  | exit f => exitLink base step f

/-- A link that reads input has a catch-all. -/
def catchAll? (base : String) (step : Nat) : Link → Option Procedure
  | bound run =>
    if (Segment.fuse 0 run).matchesInput then some ((Segment.fuse 0 run).catchAll base step)
    else none
  | enter => none
  | exit _ => none

def block (base : String) (step : Nat) (l : Link) : List Procedure :=
  l.procedure base step :: (l.catchAll? base step).toList

/-- The procedures of links that are numbered from a step. -/
def layout (base : String) : Nat → List Link → List Procedure
  | _, [] => []
  | step, l :: ls => l.block base step ++ layout base (step + 1) ls

def leaves : Link → List Leaf
  | bound run => Combinator.leavesAll run
  | enter => []
  | exit _ => []

lemma layout_append (base : String) (step : Nat) (ls ms : List Link) :
    layout base step (ls ++ ms) = layout base step ls ++ layout base (step + ls.length) ms := by
  induction ls generalizing step with
  | nil => rfl
  | cons l ls ih => simp [layout, ih, Nat.add_assoc, Nat.add_comm 1]

end Link

/-- The links of a sequence: a longest run of steps without a traverse is one link, a label around
a traverse gives way to its inner steps, and a traverse stands between two links of its own. -/
inductive Expands : List Combinator → List Link → Prop
  | nil : Expands [] []
  | bound {run rest : List Combinator} {links : List Link} (hne : run ≠ [])
      (hrun : Combinator.anyTraverse run = false)
      (hrest : ∀ c ∈ rest.head?, c.hasTraverse = true) (tail : Expands rest links) :
      Expands (run ++ rest) (.bound run :: links)
  | label {inner rest : List Combinator} {text : String} {links : List Link}
      (hinner : Combinator.anyTraverse inner = true) (body : Expands (inner ++ rest) links) :
      Expands (.label inner text :: rest) links
  | traverse {inner rest : List Combinator} {f : Transform Value} {ls ms : List Link}
      (body : Expands inner ls) (tail : Expands rest ms) :
      Expands (.traverse inner f :: rest) (.enter :: ls ++ .exit f :: ms)

/-- The runs of steps that links match hold no traverse. -/
lemma Expands.anyTraverse_of_mem {steps run : List Combinator} {links : List Link}
    (h : Expands steps links) (hmem : Link.bound run ∈ links) :
    Combinator.anyTraverse run = false := by
  induction h with
  | nil => simp at hmem
  | bound hne hrun hrest tail ih =>
    rcases List.mem_cons.mp hmem with heq | hmem
    · cases heq
      exact hrun
    · exact ih hmem
  | label hinner body ih => exact ih hmem
  | traverse body tail ihBody ihTail =>
    simp only [List.cons_append, List.mem_cons, List.mem_append, reduceCtorEq, false_or] at hmem
    exact hmem.elim ihBody ihTail

namespace Draft

@[simp] lemma finish_after (events : List Event) (d : Draft) :
    (d.after events).finish = d.finish := rfl

@[simp] lemma procedures_after (events : List Event) (d : Draft) :
    (d.after events).procedures = events.filterMap Event.procedure? ++ d.procedures := by
  simp [procedures, after]

lemma andThen_of_ok {d : Draft} {step : Nat} (h : d.finish = .ok step) (next : Nat → Draft) :
    d.andThen next = (next step).after d.events := by simp [andThen, h]

lemma finish_andThen_eq_ok {d : Draft} {next : Nat → Draft} {last : Nat} :
    (d.andThen next).finish = .ok last ↔
      ∃ step, d.finish = .ok step ∧ (next step).finish = .ok last := by
  unfold andThen
  cases h : d.finish with
  | error c => simp [h]
  | ok step => simp

end Draft

lemma Segment.procedures_events (run : List Combinator) (base : String) (step : Nat) :
    ((fuse 0 run).events base step).filterMap Event.procedure? =
      (Link.bound run).block base step := by
  cases h : (fuse 0 run).matchesInput <;>
    simp [events, summary, List.filterMap_cons, Event.procedure?, Link.block, Link.procedure,
      Link.catchAll?, h]

/-- A longest run of steps without a traverse becomes one link. -/
lemma chain_append (base : String) (step : Nat) {run rest : List Combinator} (hne : run ≠ [])
    (hrun : Combinator.anyTraverse run = false)
    (hrest : ∀ c ∈ rest.head?, c.hasTraverse = true) :
    chain base step (run ++ rest) =
      (chain base (step + 1) rest).after ((Segment.fuse 0 run).events base step) := by
  obtain ⟨c, cs, rfl⟩ := List.exists_cons_of_ne_nil hne
  have hlen := (Segment.consumed_fuse_eq_length 0 (c :: cs)).mpr hrun
  have hfuse := Segment.fuse_append_of_hasTraverse 0 hrun hrest
  have hc : c.hasTraverse = false := by
    simp only [Combinator.anyTraverse, Bool.or_eq_false_iff] at hrun
    exact hrun.1
  rw [List.cons_append] at hfuse ⊢
  rw [chain_of_fuse base step (cs ++ rest) hc, hfuse, hlen, ← List.cons_append, List.drop_left]

/-- Links that a sequence expands to are the chain of the sequence. -/
theorem Expands.chain_eq {steps : List Combinator} {links : List Link} (h : Expands steps links)
    (base : String) (step : Nat) :
    (chain base step steps).finish = .ok (step + links.length) ∧
      (chain base step steps).procedures = Link.layout base step links := by
  induction h generalizing step with
  | nil => simp [Draft.opened, Draft.procedures, Link.layout]
  | bound hne hrun hrest tail ih =>
    obtain ⟨hf, hp⟩ := ih (step + 1)
    rw [chain_append base step hne hrun hrest]
    refine ⟨?_, ?_⟩
    · rw [Draft.finish_after, hf, List.length_cons]
      congr 1
      omega
    · rw [Draft.procedures_after, hp, Segment.procedures_events, Link.layout]
  | label hinner body ih =>
    obtain ⟨hf, hp⟩ := ih step
    rw [chain_label base step _ _ _ hinner]
    exact ⟨hf, by simp [hp, List.filterMap_cons, Event.procedure?]⟩
  | @traverse inner rest f ls ms body tail ihBody ihTail =>
    obtain ⟨hf, hp⟩ := ihBody (step + 1)
    obtain ⟨hf', hp'⟩ := ihTail (step + 1 + ls.length + 1)
    rw [chain_traverse, Draft.andThen_of_ok (by exact hf)]
    refine ⟨?_, ?_⟩
    · rw [Draft.finish_after, Draft.finish_after, hf']
      simp only [List.length_append, List.length_cons]
      congr 1
      omega
    · have hd := Draft.procedures_after
        [.unbound (.link base step) "traverse", .procedure (enterLink base step)]
        (chain base (step + 1) inner)
      rw [Draft.procedures_after, Draft.procedures_after, ← Draft.procedures, hd, hp, hp']
      simp [Link.layout, Link.layout_append, Link.block, Link.procedure, Link.catchAll?,
        List.filterMap_cons, Event.procedure?]

/-- Sequences as the chain takes them apart: a longest run of steps without a traverse comes off at
once, a label around a traverse gives way to its inner steps, a traverse stands before the rest, and
nothing is made of a compile-time traverse around a traverse. -/
@[elab_as_elim]
theorem Combinator.chain_induction {motive : List Combinator → Prop} (nil : motive [])
    (bound : ∀ run rest, run ≠ [] → anyTraverse run = false →
      (∀ c ∈ rest.head?, c.hasTraverse = true) → motive rest → motive (run ++ rest))
    (label : ∀ inner text rest, anyTraverse inner = true → motive (inner ++ rest) →
      motive (.label inner text :: rest))
    (traverse : ∀ inner f rest, motive inner → motive rest → motive (.traverse inner f :: rest))
    (stuck : ∀ inner f rest, anyTraverse inner = true → motive (.compileTraverse inner f :: rest))
    (steps : List Combinator) : motive steps := by
  induction hn : nodesAll steps using Nat.strongRecOn generalizing steps with
  | _ n ih =>
  subst hn
  obtain ⟨run, rest, rfl, hrun, hrest⟩ := exists_longest_run steps
  cases run with
  | cons c cs =>
    have hpos := c.nodes_pos
    have hnodes := nodesAll_append (c :: cs) rest
    exact bound _ _ (by simp) hrun hrest
      (ih (nodesAll rest) (by simp only [nodesAll] at hnodes; omega) rest rfl)
  | nil =>
    cases rest with
    | nil => exact nil
    | cons c cs =>
      have ht : c.hasTraverse = true := hrest c rfl
      rw [List.nil_append] at ih ⊢
      cases c with
      | literal text => simp [hasTraverse] at ht
      | byteRange ranges modifiers => simp [hasTraverse] at ht
      | label inner text =>
        exact label inner text cs (by simpa [hasTraverse] using ht)
          (ih _ (by simp only [nodesAll, nodes, nodesAll_append]; omega) (inner ++ cs) rfl)
      | traverse inner f =>
        exact traverse inner f cs
          (ih _ (by simp only [nodesAll, nodes]; omega) inner rfl)
          (ih _ (by simp only [nodesAll, nodes]; omega) cs rfl)
      | compileTraverse inner f => exact stuck inner f cs (by simpa [hasTraverse] using ht)

/-- A sequence whose chain does not get stuck expands to links. -/
theorem exists_expands {base : String} {step last : Nat} {steps : List Combinator}
    (h : (chain base step steps).finish = .ok last) : ∃ links, Expands steps links := by
  induction steps using Combinator.chain_induction generalizing step last with
  | nil => exact ⟨[], .nil⟩
  | bound run rest hne hrun hrest ih =>
    rw [chain_append base step hne hrun hrest, Draft.finish_after] at h
    obtain ⟨links, hl⟩ := ih h
    exact ⟨_, .bound hne hrun hrest hl⟩
  | label inner text rest hinner ih =>
    rw [chain_label base step inner text rest hinner, Draft.finish_after] at h
    obtain ⟨links, hl⟩ := ih h
    exact ⟨links, .label hinner hl⟩
  | traverse inner f rest ihBody ihTail =>
    rw [chain_traverse, Draft.finish_andThen_eq_ok] at h
    obtain ⟨mid, hbody, htail⟩ := h
    rw [Draft.finish_after] at hbody htail
    obtain ⟨ls, hls⟩ := ihBody hbody
    obtain ⟨ms, hms⟩ := ihTail htail
    exact ⟨_, .traverse hls hms⟩
  | stuck inner f rest hinner =>
    rw [chain_compileTraverse base step inner f rest hinner] at h
    simp [Draft.stuck] at h

/-- The program of links. -/
def Program.ofLinks (name : String) (start : Position) (links : List Link) : Program where
  name := name
  entry := ⟨.link name 0, start⟩
  procedures := Link.layout name 0 links ++ [successLink name links.length]

lemma Expands.closedChain_eq {steps : List Combinator} {links : List Link}
    (h : Expands steps links) (config : Config) (name : String) :
    (closedChain name steps).finish = .ok links.length ∧
      (closedChain name steps).program config name =
        Program.ofLinks name config.start links := by
  obtain ⟨hf, hp⟩ := h.chain_eq name 0
  rw [Nat.zero_add] at hf
  rw [closedChain, Draft.andThen_of_ok hf]
  refine ⟨rfl, ?_⟩
  have hprocs := Draft.procedures_after (chain name 0 steps).events
    ⟨[.procedure (successLink name links.length)], .ok links.length⟩
  rw [Draft.program, hprocs, ← Draft.procedures, hp]
  rfl

/-- A closed chain that does not get stuck comes from links. -/
lemma exists_expands_of_closedChain {name : String} {steps : List Combinator} {last : Nat}
    (h : (closedChain name steps).finish = .ok last) : ∃ links, Expands steps links := by
  rw [closedChain, Draft.finish_andThen_eq_ok] at h
  obtain ⟨mid, hmid, -⟩ := h
  exact exists_expands hmid

namespace Combinator

/-- A text, two bytes in reverse, and a byte that is rewritten while the chain is built. -/
def sample (g : Transform Term) : List Combinator :=
  [.literal "a", .traverse [byte, byte] ⟨"reverse", List.reverse⟩, .compileTraverse [byte] g]

/-- The links of the sample. -/
def sampleLinks (g : Transform Term) : List Link :=
  [.bound [.literal "a"], .enter, .bound [byte, byte], .exit ⟨"reverse", List.reverse⟩,
    .bound [.compileTraverse [byte] g]]

lemma expands_sample (g : Transform Term) : Expands (sample g) (sampleLinks g) := by
  have hbound (run : List Combinator) (hne : run ≠ []) (hrun : anyTraverse run = false) :
      Expands run [.bound run] := by
    simpa using Expands.bound hne hrun (by simp) .nil
  have hinner := hbound [byte, byte] (by simp) rfl
  have hlast := hbound [.compileTraverse [byte] g] (by simp) rfl
  have hfirst : anyTraverse [.literal "a"] = false := rfl
  exact .bound (by simp) hfirst (by simp [hasTraverse]) (.traverse hinner hlast)

end Combinator
end ParserChain
