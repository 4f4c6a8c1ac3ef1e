import ParserChain.Proofs.Clause
import ParserChain.Proofs.Flatten
import ParserChain.Proofs.Refusal

/-! The events of a compilation, against its steps and its procedures. Every event that announces a
link stands directly in front of that link, also where chains are nested; and the groups that are
opened are those of the tree in preorder, since a label that gives way leaves its inner steps in
its place. -/
namespace ParserChain

/-- A group that cannot be fused and is opened. -/
inductive Opening
  | label (text : String) (inner : Nat)
  | traverse
  deriving DecidableEq

lemma countP_eq_countP_filterMap {α β : Type} {p : α → Bool} {f : α → Option β} {q : β → Bool}
    (h : ∀ a, p a = (f a).any q) (as : List α) : as.countP p = (as.filterMap f).countP q := by
  rw [List.countP_filterMap]
  congr 1
  funext a
  rw [h a]
  cases f a <;> rfl

namespace Combinator

def isTraverse : Combinator → Bool
  | .traverse .. => true
  | _ => false

/-- A label that has a traverse in its tree. -/
def isOpenLabel : Combinator → Bool
  | .label inner _ => (preorderAll inner).any isTraverse
  | _ => false

/-- A label with a traverse in its tree is opened, and so is a traverse. -/
def opening? : Combinator → Option Opening
  | .label inner text =>
    if (preorderAll inner).any isTraverse then some (.label text inner.length) else none
  | .traverse .. => some .traverse
  | _ => none

lemma any_isTraverse_preorderAll (cs : List Combinator) :
    (preorderAll cs).any isTraverse = anyTraverse cs := by
  rw [Bool.eq_iff_iff, anyTraverse_iff, List.any_eq_true]
  constructor
  · rintro ⟨c, hc, ht⟩
    cases c with
    | traverse inner f => exact ⟨inner, f, hc⟩
    | _ => simp [isTraverse] at ht
  · rintro ⟨inner, f, h⟩
    exact ⟨_, h, rfl⟩

lemma isTraverse_eq (c : Combinator) : c.isTraverse = c.opening?.any (· == .traverse) := by
  cases c with
  | label inner text =>
    cases h : (preorderAll inner).any isTraverse <;> simp [isTraverse, opening?, h]
  | _ => rfl

lemma isOpenLabel_eq (c : Combinator) : c.isOpenLabel = c.opening?.any (· != .traverse) := by
  cases c with
  | label inner text =>
    cases h : (preorderAll inner).any isTraverse <;> simp [isOpenLabel, opening?, h]
  | _ => rfl

mutual
/-- Nothing is opened in a tree that fuses. -/
lemma filterMap_opening?_preorder : (c : Combinator) → c.hasTraverse = false →
    c.preorder.filterMap opening? = []
  | .literal text, _ => rfl
  | .byteRange ranges modifiers, _ => rfl
  | .label inner text, h => by
    have hinner : anyTraverse inner = false := h
    simpa [preorder, List.filterMap_cons, opening?, any_isTraverse_preorderAll, hinner] using
      filterMap_opening?_preorderAll inner hinner
  | .traverse inner f, h => by simp [hasTraverse] at h
  | .compileTraverse inner f, h => by
    have hinner : anyTraverse inner = false := h
    simpa [preorder, List.filterMap_cons, opening?] using
      filterMap_opening?_preorderAll inner hinner

lemma filterMap_opening?_preorderAll : (cs : List Combinator) → anyTraverse cs = false →
    (preorderAll cs).filterMap opening? = []
  | [], _ => rfl
  | c :: cs, h => by
    simp only [anyTraverse, Bool.or_eq_false_iff] at h
    rw [preorderAll, List.filterMap_append, filterMap_opening?_preorder c h.1,
      filterMap_opening?_preorderAll cs h.2, List.nil_append]
end

end Combinator

/-- The number of terms that are put in front, where the accumulator stays otherwise as it is. -/
def Body.prepended? : Body → Option Nat
  | .invoke _ .keep .. => some 0
  | .invoke _ (.prepend terms) .. => some terms.length
  | _ => none

/-- What is reported of a segment is so of its link. -/
structure Procedure.Summed (d : Procedure) (name : Name) (inputs guards outputs : Nat)
    (catchAll : Bool) : Prop where
  named : d.name = name
  inputs : d.input.length = inputs
  guards : d.guard.conjuncts = guards
  outputs : d.body.prepended? = some outputs
  fallback : d.fallback = if catchAll then some name.catchAll else none

namespace Event

def isUnbound : Event → Bool
  | .unbound .. => true
  | _ => false

def isUnwrap : Event → Bool
  | .unwrap .. => true
  | _ => false

def opening? : Event → Option Opening
  | .unwrap label inner => some (.label label inner)
  | .unbound .. => some .traverse
  | _ => none

lemma isUnbound_eq (e : Event) : e.isUnbound = e.opening?.any (· == .traverse) := by
  cases e <;> simp [isUnbound, opening?]

lemma isUnwrap_eq (e : Event) : e.isUnwrap = e.opening?.any (· != .traverse) := by
  cases e <;> simp [isUnwrap, opening?]

/-- The event is that of a catch-all. -/
def isCatchAll : Event → Bool
  | .procedure d => d.name.isCatchAll
  | _ => false

/-- What stands directly behind an event. Behind a segment there is its link, and then the
catch-all of the link just when there is one; behind a traverse there is the link that saves. -/
def Announces (base : String) : Event → List Event → Prop
  | .segment name _ inputs guards outputs catchAll, after =>
    ∃ d rest, after = .procedure d :: rest ∧ d.Summed name inputs guards outputs catchAll ∧
      rest.head?.any isCatchAll = catchAll ∧
      (catchAll = true → ∃ reason, rest.head? =
        some (.procedure { name := name.catchAll, body := .error reason }))
  | .unbound name kind, after => kind = "traverse" ∧ ∃ step, name = .link base step ∧
      after.head? = some (.procedure (enterLink base step))
  | _, _ => True

/-- More events behind change nothing, unless a catch-all comes first among them. -/
lemma Announces.append {base : String} {e : Event} {after more : List Event}
    (h : e.Announces base after) (hmore : more.head?.any isCatchAll = false) :
    e.Announces base (after ++ more) := by
  cases e with
  | segment name consumed inputs guards outputs catchAll =>
    obtain ⟨d, rest, rfl, hsum, hcatch, hreason⟩ := h
    refine ⟨d, rest ++ more, rfl, hsum, ?_, ?_⟩
    · cases rest with
      | nil => simpa [hmore] using hcatch
      | cons e rest => exact hcatch
    · intro htrue
      obtain ⟨reason, hhead⟩ := hreason htrue
      exact ⟨reason, List.mem_head?_append_of_mem_head? hhead⟩
  | unbound name kind =>
    obtain ⟨hkind, step, hname, hhead⟩ := h
    exact ⟨hkind, step, hname, List.mem_head?_append_of_mem_head? hhead⟩
  | unwrap label inner => trivial
  | procedure d => trivial

end Event

/-- Every event is followed by what it announces. -/
def AllAnnounced (base : String) : List Event → Prop
  | [] => True
  | e :: es => e.Announces base es ∧ AllAnnounced base es

/-- The same of events with no catch-all in front, so that they can stand behind other ones. -/
structure Traced (base : String) (events : List Event) : Prop where
  head : events.head?.any Event.isCatchAll = false
  announced : AllAnnounced base events

lemma AllAnnounced.append {base : String} {es fs : List Event} (hes : AllAnnounced base es)
    (hfs : Traced base fs) : AllAnnounced base (es ++ fs) := by
  induction es with
  | nil => exact hfs.announced
  | cons e es ih => exact ⟨hes.1.append hfs.head, ih hes.2⟩

lemma AllAnnounced.of_append {base : String} {before after : List Event} {e : Event}
    (h : AllAnnounced base (before ++ e :: after)) : e.Announces base after := by
  induction before with
  | nil => exact h.1
  | cons b before ih => exact ih h.2

namespace Traced
variable {base : String} {es fs : List Event}

lemma nil : Traced base [] := ⟨rfl, trivial⟩

lemma append (hes : Traced base es) (hfs : Traced base fs) : Traced base (es ++ fs) := by
  refine ⟨?_, hes.announced.append hfs⟩
  cases es with
  | nil => exact hfs.head
  | cons e es => exact hes.head

lemma unwrap (label : String) (inner : Nat) : Traced base [.unwrap label inner] :=
  ⟨rfl, trivial, trivial⟩

lemma enter (step : Nat) : Traced base
    [.unbound (.link base step) "traverse", .procedure (enterLink base step)] :=
  ⟨rfl, ⟨rfl, step, rfl, rfl⟩, trivial, trivial⟩

/-- A link that is no catch-all. -/
lemma procedure {d : Procedure} (hd : d.name.isCatchAll = false) : Traced base [.procedure d] :=
  ⟨by simpa [Event.isCatchAll] using hd, trivial, trivial⟩

end Traced

lemma Segment.summed_link (run : List Combinator) (hrun : Combinator.anyTraverse run = false)
    (base : String) (step : Nat) :
    ((fuse 0 run).link base step).Summed (.link base step) (fuse 0 run).inputs.length
      (fuse 0 run).guards.length (fuse 0 run).outputs.length (fuse 0 run).matchesInput where
  named := rfl
  inputs := rfl
  guards := Guard.conjuncts_allOf fun _ => isClause_of_mem_fuse 0 hrun
  outputs := by
    cases h : (fuse 0 run).outputs <;>
      simp [link, AccUpdate.ofTerms, Body.prepended?, h]
  fallback := rfl

/-- A segment is reported with its link and its catch-all. -/
lemma Segment.traced_events (run : List Combinator) (hrun : Combinator.anyTraverse run = false)
    (base : String) (step : Nat) : Traced base ((fuse 0 run).events base step) := by
  have hsum := summed_link run hrun base step
  unfold events summary
  cases hinput : (fuse 0 run).matchesInput with
  | true =>
    rw [hinput] at hsum
    refine ⟨rfl, ⟨_, _, rfl, hsum, ?_, fun _ => ⟨_, rfl⟩⟩, trivial, trivial, trivial⟩
    simp [Event.isCatchAll, catchAll]
  | false =>
    rw [hinput] at hsum
    exact ⟨rfl, ⟨_, _, rfl, hsum, rfl, by simp⟩, trivial, trivial⟩

lemma Traced.andThen {base : String} {d : Draft} {next : Nat → Draft} (hd : Traced base d.events)
    (hnext : ∀ step, Traced base (next step).events) : Traced base (d.andThen next).events := by
  unfold Draft.andThen
  cases d.finish with
  | error c => exact hd
  | ok step => exact hd.append (hnext step)

/-- Every event of a chain is followed by what it announces, also where the chain gets stuck. -/
theorem chain_traced (base : String) (step : Nat) (steps : List Combinator) :
    Traced base (chain base step steps).events := by
  induction steps using Combinator.chain_induction generalizing step with
  | nil =>
    rw [chain_nil]
    exact .nil
  | bound run rest hne hrun hrest ih =>
    rw [chain_append base step hne hrun hrest]
    exact (Segment.traced_events run hrun base step).append (ih (step + 1))
  | label inner text rest hinner ih =>
    rw [chain_label base step inner text rest hinner]
    exact (Traced.unwrap text inner.length).append (ih step)
  | traverse inner f rest ihBody ihTail =>
    rw [chain_traverse]
    apply Traced.andThen
    · exact (Traced.enter step).append (ihBody (step + 1))
    · intro last
      exact (Traced.procedure rfl).append (ihTail (last + 1))
  | stuck inner f rest hinner =>
    rw [chain_compileTraverse base step inner f rest hinner]
    exact .nil

lemma closedChain_traced (name : String) (steps : List Combinator) :
    Traced name (closedChain name steps).events :=
  (chain_traced name 0 steps).andThen fun _ => .procedure rfl

lemma Segment.filterMap_opening?_events (s : Segment) (base : String) (step : Nat) :
    (s.events base step).filterMap Event.opening? = [] := by
  cases h : s.matchesInput <;> simp [events, summary, h, List.filterMap_cons, Event.opening?]

open Combinator in
/-- A chain that does not get stuck opens the groups of its sequence in preorder, each one once. A
label hands its inner steps on in front of what follows, which is where preorder has them. -/
theorem chain_openings {base : String} {step last : Nat} {steps : List Combinator}
    (h : (chain base step steps).finish = .ok last) :
    (chain base step steps).events.filterMap Event.opening? =
      (preorderAll steps).filterMap Combinator.opening? := by
  induction steps using Combinator.chain_induction generalizing step last with
  | nil => simp [Draft.opened, preorderAll]
  | bound run rest hne hrun hrest ih =>
    rw [chain_append base step hne hrun hrest] at h ⊢
    rw [preorderAll_append, List.filterMap_append, filterMap_opening?_preorderAll run hrun,
      Draft.after, List.filterMap_append, Segment.filterMap_opening?_events, ih h]
  | label inner text rest hinner ih =>
    rw [chain_label base step inner text rest hinner] at h ⊢
    -- The spliced sequence has the inner steps in front, and so has the preorder of the label.
    have hrest := ih h
    rw [preorderAll_append] at hrest
    simp [Draft.after, preorderAll, preorder, Event.opening?, Combinator.opening?,
      any_isTraverse_preorderAll, hinner, hrest]
  | traverse inner f rest ihBody ihTail =>
    rw [chain_traverse] at h ⊢
    obtain ⟨mid, hbody, htail⟩ := Draft.finish_andThen_eq_ok.mp h
    rw [Draft.andThen_of_ok hbody]
    have hinner := ihBody hbody
    have hrest := ihTail htail
    simp [Draft.after, preorderAll, preorder, List.filterMap_cons, Event.opening?,
      Combinator.opening?, hinner, hrest]
  | stuck inner f rest hinner =>
    rw [chain_compileTraverse base step inner f rest hinner] at h
    simp [Draft.stuck] at h

namespace Config
variable {config : Config} {name : String} {steps : List Combinator} {p : Program}

/-- The events of what compiles are those of its closed chain, and its procedures are among them. -/
lemma events_of_compile (hp : config.compile name steps = .ok p) :
    (config.compilation name steps).events = (closedChain name steps).events ∧
      (closedChain name steps).procedures = p.procedures := by
  obtain ⟨links, hlinks, rfl⟩ := expands_of_compile hp
  obtain ⟨hfin, hprog⟩ := hlinks.closedChain_eq config name
  have hemp : steps.isEmpty = false := by
    cases hemp : steps.isEmpty with
    | true => simp [config.compile_eq, hemp] at hp
    | false => rfl
  refine ⟨?_, by rw [← hprog]; rfl⟩
  simp [compilation, hemp, hfin]

lemma closedChain_openings (hp : config.compile name steps = .ok p) :
    (closedChain name steps).events.filterMap Event.opening? =
      (Combinator.preorderAll steps).filterMap Combinator.opening? := by
  obtain ⟨links, hlinks, -⟩ := expands_of_compile hp
  obtain ⟨hfin, -⟩ := hlinks.chain_eq name 0
  rw [closedChain, Draft.andThen_of_ok hfin, ← chain_openings hfin]
  simp [Draft.after, Event.opening?]

open Combinator in
/-- The events of a compilation are faithful to it. The links reported are the procedures of the
program in order. What is reported of a segment is so of the link reported next, with a catch-all
behind that link just when one is announced, and a traverse is reported in front of the link that
it is entered by. The labels that give way and the traverses are those of the tree in preorder: a
label gives way once if there is a traverse in it, with the number of its own inner steps. -/
theorem compile_events_faithful (hp : config.compile name steps = .ok p) :
    (config.compilation name steps).events.filterMap Event.procedure? = p.procedures ∧
    (∀ before e after, (config.compilation name steps).events = before ++ e :: after →
      e.Announces name after) ∧
    (config.compilation name steps).events.filterMap Event.opening? =
      (preorderAll steps).filterMap Combinator.opening? ∧
    (config.compilation name steps).events.countP Event.isUnbound =
      (preorderAll steps).countP isTraverse ∧
    (config.compilation name steps).events.countP Event.isUnwrap =
      (preorderAll steps).countP isOpenLabel := by
  obtain ⟨hevents, hprocs⟩ := events_of_compile hp
  have hopenings := closedChain_openings hp
  rw [hevents]
  refine ⟨hprocs, ?_, hopenings, ?_, ?_⟩
  · intro before e after heq
    have hall := (closedChain_traced name steps).announced
    rw [heq] at hall
    exact hall.of_append
  · rw [countP_eq_countP_filterMap Event.isUnbound_eq, hopenings,
      countP_eq_countP_filterMap isTraverse_eq]
  · rw [countP_eq_countP_filterMap Event.isUnwrap_eq, hopenings,
      countP_eq_countP_filterMap isOpenLabel_eq]

open Combinator in
theorem compile_events_faithful_tangled : ∃ p, Config.compile {} "p" tangled = .ok p ∧
    (Config.compilation {} "p" tangled).events.filterMap Event.procedure? = p.procedures ∧
    (Config.compilation {} "p" tangled).events.filterMap Event.opening? =
      [.label "x" 3, .traverse, .traverse] ∧
    (Config.compilation {} "p" tangled).events.countP Event.isUnbound = 2 ∧
    (Config.compilation {} "p" tangled).events.countP Event.isUnwrap = 1 := by
  have hp := expands_tangled.compile_eq (by simp [tangled]) {} "p"
  obtain ⟨hprocs, -, hopenings, hunbound, hunwrap⟩ := compile_events_faithful hp
  exact ⟨_, hp, hprocs, hopenings, hunbound, hunwrap⟩

end Config
end ParserChain
