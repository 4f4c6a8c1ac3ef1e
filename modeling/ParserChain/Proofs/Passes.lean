import ParserChain.Program.Flaw
import ParserChain.Proofs.Tally

/-! The check of a program as passes over its procedures. One pass notes where each name stands, and
the next looks up there what a procedure mentions while it counts the mentions of each name; the
first flaw ends them all. They find the flaw that the check finds. -/
namespace ParserChain

/-- The flaw, or the answer where there is none. -/
def stopAt {α : Type} (flaw : Option Flaw) (answer : α) : Except Flaw α :=
  match flaw with
  | none => .ok answer
  | some flaw => .error flaw

/-- Notes the place of each name, counted on, and stops at a name that has a place. -/
def notePlaces (places : List (Name × Nat)) (position : Nat) :
    List Name → Except Flaw (List (Name × Nat))
  | [] => .ok places
  | name :: names =>
    if (places.lookup name).isSome then .error (.definedTwice name)
    else notePlaces (places ++ [(name, position)]) (position + 1) names

/-- How often each name was called and was fallen back to. -/
structure Mentions where
  calls : List (Name × Nat) := []
  fallbacks : List (Name × Nat) := []

namespace Mentions

def countCall (places : List (Name × Nat)) (position : Nat) (source : Name) (m : Mentions) :
    Option Name → Except Flaw Mentions
  | none => .ok m
  | some target =>
    match places.lookup target with
    | none => .error (.undefinedTarget source target)
    | some place =>
      if place ≤ position then .error (.backwards source target)
      else if target.isCatchAll then .error (.callsCatchAll source target)
      else .ok { m with calls := bump m.calls target }

def countFallback (places : List (Name × Nat)) (source : Name) (m : Mentions) :
    Option Name → Except Flaw Mentions
  | none => .ok m
  | some name =>
    if !name.isCatchAll || (places.lookup name).isNone then .error (.badFallback source name)
    else .ok { m with fallbacks := bump m.fallbacks name }

/-- Counts what the procedures from a position on mention. -/
def count (places : List (Name × Nat)) (position : Nat) (m : Mentions) :
    List Procedure → Except Flaw Mentions
  | [] => .ok m
  | d :: ds =>
    ((m.countCall places position d.name d.body.target?).bind fun m =>
      m.countFallback places d.name d.fallback).bind fun m => m.count places (position + 1) ds

end Mentions

namespace Program

/-- What is left to check once all mentions have been counted. -/
def passCounts (p : Program) (m : Mentions) : Except Flaw Unit :=
  match m.calls.find? (fun e => maxPredecessors < e.2) with
  | some (name, count) => .error (.predecessors name count)
  | none =>
    match p.names.find? fun name => name.isCatchAll && m.fallbacks.lookup name ≠ some 1 with
    | some name => .error (.unownedCatchAll name)
    | none => .ok ()

/-- The check, one pass after another. -/
def passes (p : Program) : Except Flaw Unit :=
  (notePlaces [] 0 p.names).bind fun places =>
    (stopAt p.entryFlaw? ()).bind fun _ =>
      (stopAt p.successFlaw? ()).bind fun _ =>
        (Mentions.count places 0 {} p.procedures).bind p.passCounts

end Program

lemma stopAt_or {α : Type} (flaw next : Option Flaw) (answer : α) :
    stopAt (flaw.or next) answer = (stopAt flaw ()).bind fun _ => stopAt next answer := by
  cases flaw <;> rfl

/-- What follows a pass gets the answer of the pass, so the pass itself need not carry it. -/
lemma stopAt_bind {α β : Type} (flaw : Option Flaw) (answer : α) (f : α → Except Flaw β) :
    (stopAt flaw answer).bind f = (stopAt flaw ()).bind fun _ => f answer := by
  cases flaw <;> rfl

lemma notePlaces_eq (names : List Name) {places : List (Name × Nat)} {seen : List Name}
    (h : ∀ name, (places.lookup name).isSome = true ↔ name ∈ seen) (position : Nat) :
    notePlaces places position names =
      stopAt ((firstRepeat? seen names).map .definedTwice) (places ++ names.zipIdx position) := by
  induction names generalizing places seen position with
  | nil => simp [notePlaces, firstRepeat?, stopAt]
  | cons name names ih =>
    by_cases hname : name ∈ seen
    · simp [notePlaces, firstRepeat?, hname, (h name).mpr hname, stopAt]
    · have hnone : (places.lookup name).isSome = false := by
        rw [Bool.eq_false_iff, ne_eq, h]
        exact hname
      have hseen (other : Name) : ((places ++ [(name, position)]).lookup other).isSome = true ↔
          other ∈ name :: seen := by
        rw [List.lookup_append, Option.isSome_or, Bool.or_eq_true, List.mem_cons, ← h other,
          or_comm, List.lookup_cons]
        by_cases heq : other = name
        · simp [heq]
        · simp [heq, beq_false_of_ne heq]
      rw [notePlaces, if_neg (by simp [hnone]), ih hseen, firstRepeat?, if_neg hname,
        List.zipIdx_cons, List.append_assoc]
      rfl

namespace Mentions
variable {names : List Name} {places : List (Name × Nat)}
  (hplaces : ∀ name, places.lookup name = names.idxOf? name)
include hplaces

lemma countCall_eq (position : Nat) (source : Name) (m : Mentions) (target? : Option Name) :
    m.countCall places position source target? =
      stopAt (target?.bind (Program.targetFlaw? names position source))
        { m with calls := target?.toList.foldl bump m.calls } := by
  cases target? with
  | none => rfl
  | some target =>
    simp only [countCall, hplaces, Option.bind_some, Program.targetFlaw?]
    cases names.idxOf? target with
    | none => rfl
    | some place =>
      simp only
      split
      · rfl
      · split <;> rfl

lemma countFallback_eq (source : Name) (m : Mentions) (fallback? : Option Name) :
    m.countFallback places source fallback? =
      stopAt (fallback?.bind (Program.fallbackFlaw? names source))
        { m with fallbacks := fallback?.toList.foldl bump m.fallbacks } := by
  cases fallback? with
  | none => rfl
  | some name =>
    have hmem : (places.lookup name).isNone = !names.contains name := by
      rw [hplaces]
      cases hidx : names.idxOf? name with
      | none => simp [List.idxOf?_eq_none_iff.mp hidx]
      | some place =>
        obtain ⟨hlt, heq, -⟩ := List.idxOf?_eq_some_iff.mp hidx
        simp [← heq]
    simp only [countFallback, hmem, Option.bind_some, Program.fallbackFlaw?]
    cases name.isCatchAll <;> cases names.contains name <;> rfl

/-- Up to the first flaw in a procedure, the counts grow by what the procedures mention. -/
lemma count_eq (ds : List Procedure) (position : Nat) (m : Mentions) :
    m.count places position ds =
      stopAt ((ds.zipIdx position).findSome? fun (d, i) => Program.linkFlaw? names i d)
        { calls := (ds.filterMap (·.body.target?)).foldl bump m.calls
          fallbacks := (ds.filterMap (·.fallback)).foldl bump m.fallbacks } := by
  induction ds generalizing position m with
  | nil => rfl
  | cons d ds ih =>
    have hfirst (f : Procedure → Option Name) :
        (d :: ds).filterMap f = (f d).toList ++ ds.filterMap f := by
      cases hd : f d <;> simp [hd]
    simp only [count, countCall_eq hplaces, countFallback_eq hplaces, ih, List.zipIdx_cons,
      List.findSome?_cons, Program.linkFlaw?, hfirst, List.foldl_append]
    cases d.body.target?.bind (Program.targetFlaw? names position d.name) with
    | some flaw => rfl
    | none =>
      cases d.fallback.bind (Program.fallbackFlaw? names d.name) with
      | some flaw => rfl
      | none => rfl

end Mentions

namespace Program

lemma passCounts_eq (p : Program) :
    p.passCounts ⟨p.targets.foldl bump [], p.fallbacks.foldl bump []⟩ =
      stopAt (p.crowdFlaw?.or p.catchAllFlaw?) () := by
  have howned : (fun name : Name =>
      name.isCatchAll && (p.fallbacks.foldl bump []).lookup name ≠ some 1) =
      fun name => name.isCatchAll && p.fallbacks.count name ≠ 1 := by
    funext name
    rw [lookup_foldl_bump]
    by_cases hname : name ∈ p.fallbacks
    · simp [hname]
    · simp [hname, List.count_eq_zero.mpr hname]
  simp only [passCounts, howned, crowdFlaw?, catchAllFlaw?,
    find?_foldl_bump p.targets fun n => decide (maxPredecessors < n)]
  cases p.targets.find? fun name => maxPredecessors < p.targets.count name with
  | some name => rfl
  | none =>
    simp only [Option.map_none, Option.none_or]
    cases p.names.find? fun name => name.isCatchAll && p.fallbacks.count name ≠ 1 with
    | some name => rfl
    | none => rfl

/-- The passes find what the check finds. -/
theorem passes_eq (p : Program) : p.passes = stopAt p.flaw? () := by
  have hplaces (name : Name) : (p.names.zipIdx).lookup name = p.names.idxOf? name := by
    simp [lookup_zipIdx]
  have hmentions : (Mentions.count p.names.zipIdx 0 {} p.procedures).bind p.passCounts =
      (stopAt (p.procedures.zipIdx.findSome? fun (d, i) => linkFlaw? p.names i d) ()).bind
        fun _ => stopAt (p.crowdFlaw?.or p.catchAllFlaw?) () := by
    rw [Mentions.count_eq hplaces, stopAt_bind, ← passCounts_eq]
    rfl
  have hnote := @notePlaces_eq p.names [] [] (by simp) 0
  rw [passes, hnote, List.nil_append, stopAt_bind, hmentions]
  simp only [flaw?, stopAt_or]

end Program
end ParserChain
