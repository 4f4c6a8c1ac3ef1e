import ParserChain.Proofs.Leaf

/-! Rewrites of outputs while a chain is built. A rewrite sees terms, whose captures are open; what
it means is said by a function on values. The outputs of a fused run then resolve to what the run
yields from the values of its leaves. -/
namespace ParserChain

/-- The range of a captured value, 64 bits with a sign. -/
def IsWord (n : Int) : Prop := -9223372036854775808 ≤ n ∧ n < 9223372036854775808

namespace Transform

/-- The rewrite mentions no capture that it was not given. -/
def EmitsGiven (f : Transform Term) : Prop :=
  ∀ ts, Term.capturesAll (f.apply ts) ⊆ Term.capturesAll ts

/-- Rewriting terms before their captures are bound does what `g` does to their values. -/
def ActsLike (f : Transform Term) (g : List Value → List Value) : Prop :=
  ∀ bound : Nat → Option Int, (∀ var n, bound var = some n → IsWord n) →
    ∀ ts vs, Term.resolveAll bound ts = some vs →
      Term.resolveAll bound (f.apply ts) = some (g vs)

end Transform

namespace Combinator

mutual
/-- The rewrites of a tree, in preorder. -/
def rewrites : Combinator → List (Transform Term)
  | .literal _ => []
  | .byteRange .. => []
  | .label inner _ => rewritesAll inner
  | .traverse inner _ => rewritesAll inner
  | .compileTraverse inner f => f :: rewritesAll inner

def rewritesAll : List Combinator → List (Transform Term)
  | [] => []
  | c :: cs => rewrites c ++ rewritesAll cs
end

@[simp] lemma rewritesAll_append (cs ds : List Combinator) :
    rewritesAll (cs ++ ds) = rewritesAll cs ++ rewritesAll ds := by
  induction cs with
  | nil => rfl
  | cons c cs ih => simp [rewritesAll, ih]

mutual
/-- What a step yields when its leaves have these values. A rewrite has its meaning on values. -/
def eval (meaning : Transform Term → List Value → List Value) :
    Combinator → List Value → List Value
  | .literal _, vs => vs
  | .byteRange .., vs => vs
  | .label inner _, vs => evalAll meaning inner vs
  | .traverse inner f, vs => f.apply (evalAll meaning inner vs)
  | .compileTraverse inner f, vs => meaning f (evalAll meaning inner vs)

def evalAll (meaning : Transform Term → List Value → List Value) :
    List Combinator → List Value → List Value
  | [], _ => []
  | c :: cs, vs =>
    eval meaning c (vs.take c.leaves.length) ++ evalAll meaning cs (vs.drop c.leaves.length)
end

lemma evalAll_append (meaning : Transform Term → List Value → List Value)
    (cs ds : List Combinator) (vs ws : List Value) (h : vs.length = (leavesAll cs).length) :
    evalAll meaning (cs ++ ds) (vs ++ ws) = evalAll meaning cs vs ++ evalAll meaning ds ws := by
  induction cs generalizing vs with
  | nil =>
    obtain rfl : vs = [] := List.length_eq_zero_iff.mp h
    rfl
  | cons c cs ih =>
    simp only [leavesAll, List.length_append] at h
    have hle : c.leaves.length ≤ vs.length := by omega
    have hd : (vs.drop c.leaves.length).length = (leavesAll cs).length := by
      rw [List.length_drop]
      omega
    simp only [List.cons_append, evalAll, List.take_append_of_le_length hle,
      List.drop_append_of_le_length hle, ih _ hd, List.append_assoc]

end Combinator

namespace Term

mutual
lemma isSome_resolve (bound : Nat → Option Int) : (t : Term) →
    ((resolve bound t).isSome ↔ ∀ var ∈ captures t, (bound var).isSome)
  | .str _ => by simp [resolve, captures]
  | .int _ => by simp [resolve, captures]
  | .capture var => by simp [resolve, captures]
  | .list items => by simpa [resolve, captures] using isSome_resolveAll bound items

/-- Terms resolve exactly when all of their captures are bound. -/
lemma isSome_resolveAll (bound : Nat → Option Int) : (ts : List Term) →
    ((resolveAll bound ts).isSome ↔ ∀ var ∈ capturesAll ts, (bound var).isSome)
  | [] => by simp [resolveAll, capturesAll]
  | t :: ts => by
    have ht := isSome_resolve bound t
    have hts := isSome_resolveAll bound ts
    simp only [capturesAll, List.mem_append, or_imp, forall_and, ← ht, ← hts, resolveAll]
    cases resolve bound t <;> cases resolveAll bound ts <;> simp
end

lemma length_of_resolveAll {bound : Nat → Option Int} {ts : List Term} {vs : List Value}
    (h : resolveAll bound ts = some vs) : vs.length = ts.length := by
  induction ts generalizing vs with
  | nil =>
    obtain rfl : [] = vs := by simpa [resolveAll] using h
    rfl
  | cons t ts ih =>
    cases ht : resolve bound t with
    | none => simp [resolveAll, ht] at h
    | some v =>
      cases hts : resolveAll bound ts with
      | none => simp [resolveAll, ht, hts] at h
      | some ws =>
        obtain rfl : v :: ws = vs := by simpa [resolveAll, ht, hts] using h
        simp [ih hts]

/-- Terms in reverse have their values in reverse. -/
lemma resolveAll_reverse {bound : Nat → Option Int} {ts : List Term} {vs : List Value}
    (h : resolveAll bound ts = some vs) : resolveAll bound ts.reverse = some vs.reverse := by
  induction ts generalizing vs with
  | nil =>
    obtain rfl : [] = vs := by simpa [resolveAll] using h
    rfl
  | cons t ts ih =>
    cases ht : resolve bound t with
    | none => simp [resolveAll, ht] at h
    | some v =>
      cases hts : resolveAll bound ts with
      | none => simp [resolveAll, ht, hts] at h
      | some ws =>
        obtain rfl : v :: ws = vs := by simpa [resolveAll, ht, hts] using h
        simp [resolveAll_append, ih hts, resolveAll, ht]

/-- The values of two runs of terms are the values of each, cut at the length of the first. -/
lemma resolveAll_append_eq_some {bound : Nat → Option Int} {ts us : List Term}
    {vs : List Value} (h : resolveAll bound (ts ++ us) = some vs) :
    resolveAll bound ts = some (vs.take ts.length) ∧
      resolveAll bound us = some (vs.drop ts.length) := by
  rw [resolveAll_append] at h
  cases ht : resolveAll bound ts with
  | none => simp [ht] at h
  | some ws =>
    cases hu : resolveAll bound us with
    | none => simp [ht, hu] at h
    | some xs =>
      obtain rfl : ws ++ xs = vs := by simpa [ht, hu] using h
      rw [← length_of_resolveAll ht]
      simp

end Term

/-- A rewrite that has a meaning on values mentions no capture that it was not given. -/
lemma Transform.ActsLike.emitsGiven {f : Transform Term} {g : List Value → List Value}
    (h : f.ActsLike g) : f.EmitsGiven := by
  intro ts var hvar
  -- the assignment that binds the captures of `ts` and no other
  let bound : Nat → Option Int := fun v => if v ∈ Term.capturesAll ts then some 0 else none
  have hword : ∀ v n, bound v = some n → IsWord n := by
    intro v n hn
    obtain ⟨-, rfl⟩ : v ∈ Term.capturesAll ts ∧ 0 = n := by simpa [bound] using hn
    constructor <;> omega
  have hts : (Term.resolveAll bound ts).isSome := by
    rw [Term.isSome_resolveAll]
    intro v hv
    simp [bound, hv]
  obtain ⟨vs, hvs⟩ := Option.isSome_iff_exists.mp hts
  have hf := (Term.isSome_resolveAll bound (f.apply ts)).mp
    (Option.isSome_iff_exists.mpr ⟨_, h bound hword ts vs hvs⟩) var hvar
  by_cases hn : var ∈ Term.capturesAll ts
  · exact hn
  · simp [bound, hn] at hf

namespace Segment

/-- The outputs in matched order. -/
def matched (s : Segment) : List Term := s.outputs.reverse

@[simp] lemma matched_empty (var : Nat) : (empty var).matched = [] := rfl

@[simp] lemma matched_append (s t : Segment) :
    (s.append t).matched = s.matched ++ t.matched := by simp [matched, append]

@[simp] lemma matched_grouped_id (s : Segment) (step : Combinator) :
    (s.grouped step id).matched = s.matched := rfl

@[simp] lemma matched_grouped_mostRecentFirst (s : Segment) (step : Combinator)
    (f : List Term → List Term) :
    (s.grouped step (mostRecentFirst f)).matched = f s.matched := by
  simp [matched, grouped, mostRecentFirst]

end Segment

@[simp] lemma Leaf.length_terms (var : Nat) (ls : List Leaf) :
    (Leaf.terms var ls).length = ls.length := by simp [Leaf.terms]

@[simp] lemma Term.capturesAll_append (ts us : List Term) :
    capturesAll (ts ++ us) = capturesAll ts ++ capturesAll us := by
  simp [capturesAll_eq_flatMap]

mutual
/-- When rewrites mention only what they are given, the outputs of a step mention only captures of
its own leaves. -/
lemma Combinator.captures_of_fuse? (var : Nat) : (c : Combinator) → {s : Segment} →
    (∀ f ∈ c.rewrites, f.EmitsGiven) → c.fuse? var = some s →
    Term.capturesAll s.matched ⊆ Term.capturesAll (Leaf.terms var c.leaves)
  | .literal text, s, _, h => by
    obtain rfl : Segment.ofLiteral var text = s := by simpa using h
    exact List.Subset.refl _
  | .byteRange ranges modifiers, s, _, h => by
    obtain rfl : Segment.ofByteRange var ranges modifiers = s := by simpa using h
    exact List.Subset.refl _
  | .label inner text, s, hf, h => by
    obtain ⟨ht, rfl⟩ := Combinator.fuse?_label.mp h
    exact Segment.captures_fuse var inner hf ht
  | .compileTraverse inner f, s, hf, h => by
    obtain ⟨ht, rfl⟩ := Combinator.fuse?_compileTraverse.mp h
    simp only [Combinator.rewrites, List.mem_cons, forall_eq_or_imp] at hf
    rw [Segment.matched_grouped_mostRecentFirst]
    exact List.Subset.trans (hf.1 _) (Segment.captures_fuse var inner hf.2 ht)
  | .traverse inner f, s, _, h => by simp at h

lemma Segment.captures_fuse (var : Nat) : (cs : List Combinator) →
    (∀ f ∈ Combinator.rewritesAll cs, f.EmitsGiven) → Combinator.anyTraverse cs = false →
    Term.capturesAll (Segment.fuse var cs).matched ⊆
      Term.capturesAll (Leaf.terms var (Combinator.leavesAll cs))
  | [], _, _ => by simp [Segment.fuse, Term.capturesAll]
  | c :: cs, hf, h => by
    simp only [Combinator.anyTraverse, Bool.or_eq_false_iff] at h
    simp only [Combinator.rewritesAll, List.mem_append, or_imp, forall_and] at hf
    obtain ⟨s, hs⟩ := Combinator.exists_fuse? var h.1
    have hc := Combinator.captures_of_fuse? var c hf.1 hs
    have hcs := Segment.captures_fuse s.nextVar cs hf.2 h.2
    rw [(Combinator.reads_of_fuse? var c hs).nextVar] at hcs
    rw [Segment.fuse_cons_of_some cs hs, (Combinator.reads_of_fuse? var c hs).nextVar,
      Segment.matched_append, Combinator.leavesAll, Leaf.terms_append, Term.capturesAll_append,
      Term.capturesAll_append]
    exact List.append_subset.mpr ⟨List.subset_append_of_subset_left _ hc,
      List.subset_append_of_subset_right _ hcs⟩
end

section
variable {meaning : Transform Term → List Value → List Value} {bound : Nat → Option Int}

mutual
/-- The outputs of a step resolve to what the step yields from the values of its leaves. -/
lemma Combinator.resolve_of_fuse? (hb : ∀ var n, bound var = some n → IsWord n) (var : Nat) :
    (c : Combinator) → {s : Segment} → {vs : List Value} →
    (∀ f ∈ c.rewrites, f.ActsLike (meaning f)) → c.fuse? var = some s →
    Term.resolveAll bound (Leaf.terms var c.leaves) = some vs →
    Term.resolveAll bound s.matched = some (c.eval meaning vs)
  | .literal text, s, vs, _, h, hv => by
    obtain rfl : Segment.ofLiteral var text = s := by simpa using h
    exact hv
  | .byteRange ranges modifiers, s, vs, _, h, hv => by
    obtain rfl : Segment.ofByteRange var ranges modifiers = s := by simpa using h
    exact hv
  | .label inner text, s, vs, hf, h, hv => by
    obtain ⟨ht, rfl⟩ := Combinator.fuse?_label.mp h
    exact Segment.resolve_fuse hb var inner hf ht hv
  | .compileTraverse inner f, s, vs, hf, h, hv => by
    obtain ⟨ht, rfl⟩ := Combinator.fuse?_compileTraverse.mp h
    simp only [Combinator.rewrites, List.mem_cons, forall_eq_or_imp] at hf
    rw [Segment.matched_grouped_mostRecentFirst]
    exact hf.1 bound hb _ _ (Segment.resolve_fuse hb var inner hf.2 ht hv)
  | .traverse inner f, s, vs, _, h, _ => by simp at h

lemma Segment.resolve_fuse (hb : ∀ var n, bound var = some n → IsWord n) (var : Nat) :
    (cs : List Combinator) → {vs : List Value} →
    (∀ f ∈ Combinator.rewritesAll cs, f.ActsLike (meaning f)) →
    Combinator.anyTraverse cs = false →
    Term.resolveAll bound (Leaf.terms var (Combinator.leavesAll cs)) = some vs →
    Term.resolveAll bound (Segment.fuse var cs).matched = some (Combinator.evalAll meaning cs vs)
  | [], vs, _, _, _ => by simp [Segment.fuse, Term.resolveAll, Combinator.evalAll]
  | c :: cs, vs, hf, h, hv => by
    simp only [Combinator.anyTraverse, Bool.or_eq_false_iff] at h
    simp only [Combinator.rewritesAll, List.mem_append, or_imp, forall_and] at hf
    obtain ⟨s, hs⟩ := Combinator.exists_fuse? var h.1
    have hn : s.nextVar = var + Leaf.varsAll c.leaves :=
      (Combinator.reads_of_fuse? var c hs).nextVar
    rw [Combinator.leavesAll, Leaf.terms_append] at hv
    obtain ⟨hvc, hvcs⟩ := Term.resolveAll_append_eq_some hv
    rw [Leaf.length_terms] at hvc hvcs
    have hc := Combinator.resolve_of_fuse? hb var c hf.1 hs hvc
    have hcs := Segment.resolve_fuse hb (var + Leaf.varsAll c.leaves) cs hf.2 h.2 hvcs
    simp [Segment.fuse_cons_of_some cs hs, hn, Term.resolveAll_append, hc, hcs, Combinator.evalAll]
end

/-- When rewrites mention only what they are given, the outputs of a run resolve once the captures
of its leaves are bound, and to what the run yields if the rewrites have a meaning on values. -/
lemma Segment.exists_resolve_fuse {run : List Combinator} {vs : List Value}
    (hb : ∀ var n, bound var = some n → IsWord n)
    (hf : ∀ f ∈ Combinator.rewritesAll run, f.EmitsGiven)
    (hrun : Combinator.anyTraverse run = false)
    (hv : Term.resolveAll bound (Leaf.terms 0 (Combinator.leavesAll run)) = some vs) :
    ∃ values, Term.resolveAll bound (Segment.fuse 0 run).outputs = some values.reverse ∧
      ∀ meaning : Transform Term → List Value → List Value,
        (∀ f ∈ Combinator.rewritesAll run, f.ActsLike (meaning f)) →
          values = Combinator.evalAll meaning run vs := by
  have hsome : (Term.resolveAll bound (Segment.fuse 0 run).matched).isSome := by
    rw [Term.isSome_resolveAll]
    intro var hvar
    exact (Term.isSome_resolveAll bound _).mp (Option.isSome_of_eq_some hv) var
      (Segment.captures_fuse 0 run hf hrun hvar)
  obtain ⟨values, hvalues⟩ := Option.isSome_iff_exists.mp hsome
  refine ⟨values, ?_, ?_⟩
  · have hrev := Term.resolveAll_reverse hvalues
    rwa [Segment.matched, List.reverse_reverse] at hrev
  · intro meaning hacts
    have heval := Segment.resolve_fuse hb 0 run hacts hrun hv
    exact Option.some.inj (hvalues.symm.trans heval)

end
end ParserChain
