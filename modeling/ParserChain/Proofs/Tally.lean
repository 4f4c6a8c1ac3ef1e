import Mathlib.Data.List.Dedup
import Mathlib.Data.List.Induction
import Mathlib.Tactic.Lemma

/-! Counting into a list of numbers, each beside its element. Elements stand there in the order in
which they first came, and every number is how often its element came in all. -/
namespace ParserChain
variable {α : Type} [DecidableEq α]

/-- One more of an element, among numbers in the order in which their elements first came. -/
def bump : List (α × Nat) → α → List (α × Nat)
  | [], x => [(x, 1)]
  | (y, n) :: rest, x => if y = x then (y, n + 1) :: rest else (y, n) :: bump rest x

/-- Each element once, where it came first. -/
def firsts (xs : List α) : List α := xs.reverse.dedup.reverse

@[simp] lemma mem_firsts {x : α} {xs : List α} : x ∈ firsts xs ↔ x ∈ xs := by
  simp [firsts]

lemma nodup_firsts (xs : List α) : (firsts xs).Nodup :=
  List.nodup_reverse.mpr (List.nodup_dedup _)

lemma firsts_concat (xs : List α) (x : α) :
    firsts (xs ++ [x]) = if x ∈ xs then firsts xs else firsts xs ++ [x] := by
  by_cases hx : x ∈ xs <;> simp [firsts, hx]

/-- What is looked for among the first occurrences is found as soon as among all. -/
lemma find?_firsts (q : α → Bool) (xs : List α) : (firsts xs).find? q = xs.find? q := by
  induction xs using List.reverseRecOn with
  | nil => rfl
  | append_singleton xs x ih =>
    rw [firsts_concat, List.find?_append]
    split
    · rename_i hx
      -- An element that came before is found there already, if it is what is looked for.
      cases hq : q x with
      | false => simp [hq, ih]
      | true =>
        have hsome : (xs.find? q).isSome = true := List.find?_isSome.mpr ⟨x, hx, hq⟩
        rw [ih, Option.or_of_isSome hsome]
    · rw [List.find?_append, ih]

lemma bump_of_notMem {t : List (α × Nat)} {x : α} (h : x ∉ t.map Prod.fst) :
    bump t x = t ++ [(x, 1)] := by
  induction t with
  | nil => rfl
  | cons e t ih =>
    rw [List.map_cons, List.mem_cons, not_or] at h
    rw [bump, if_neg (Ne.symm h.1), ih h.2]
    rfl

lemma bump_map_of_mem {keys : List α} (hkeys : keys.Nodup) {x : α} (hx : x ∈ keys) (f : α → Nat) :
    bump (keys.map fun y => (y, f y)) x = keys.map fun y => (y, f y + if y = x then 1 else 0) := by
  induction keys with
  | nil => simp at hx
  | cons y keys ih =>
    rw [List.nodup_cons] at hkeys
    by_cases hy : y = x
    · subst hy
      have hrest (z : α) (hz : z ∈ keys) : (z, f z) = (z, f z + if z = y then 1 else 0) := by
        rw [if_neg fun heq : z = y => hkeys.1 (heq ▸ hz)]
        rfl
      simp only [List.map_cons, bump, if_true, List.map_congr_left hrest]
    · have hmem : x ∈ keys := (List.mem_cons.mp hx).resolve_left (Ne.symm hy)
      simp [bump, hy, ih hkeys.2 hmem]

/-- Counting up from nothing gives each element as often as it came. -/
theorem foldl_bump (xs : List α) :
    xs.foldl bump [] = (firsts xs).map fun x => (x, xs.count x) := by
  induction xs using List.reverseRecOn with
  | nil => rfl
  | append_singleton xs x ih =>
    have hcount (y : α) : (xs ++ [x]).count y = xs.count y + if y = x then 1 else 0 := by
      simp only [List.count_append, List.count_singleton, beq_iff_eq, @eq_comm _ x y]
    rw [List.foldl_concat, ih, firsts_concat]
    split
    · rename_i hx
      simp only [bump_map_of_mem (nodup_firsts xs) (mem_firsts.mpr hx), hcount]
    · rename_i hx
      have hkeys : ((firsts xs).map fun y => (y, xs.count y)).map Prod.fst = firsts xs := by
        simp [Function.comp_def]
      rw [bump_of_notMem (by rwa [hkeys, mem_firsts]), List.map_append]
      congr 1
      · refine List.map_congr_left fun y hy => ?_
        rw [hcount, if_neg fun heq : y = x => hx (mem_firsts.mp (heq ▸ hy))]
        rfl
      · simp [List.count_eq_zero.mpr hx]

lemma find?_foldl_bump (xs : List α) (q : Nat → Bool) :
    (xs.foldl bump []).find? (fun e => q e.2) =
      (xs.find? fun x => q (xs.count x)).map fun x => (x, xs.count x) := by
  rw [foldl_bump, List.find?_map, find?_firsts]
  rfl

lemma lookup_foldl_bump (xs : List α) (x : α) :
    (xs.foldl bump []).lookup x = if x ∈ xs then some (xs.count x) else none := by
  rw [foldl_bump]
  split
  · rename_i hx
    exact List.lookup_graph _ (mem_firsts.mpr hx)
  · rename_i hx
    rw [List.lookup_eq_none_iff]
    simp only [List.mem_map, mem_firsts]
    rintro e ⟨y, hy, rfl⟩
    simpa using fun heq : x = y => hx (heq ▸ hy)

lemma lookup_zipIdx (xs : List α) (k : Nat) (x : α) :
    (xs.zipIdx k).lookup x = (xs.idxOf? x).map (k + ·) := by
  induction xs generalizing k with
  | nil => rfl
  | cons y xs ih =>
    rw [List.zipIdx_cons, List.lookup_cons, List.idxOf?_cons, ih]
    by_cases hy : y = x
    · simp [hy]
    · have hyx : (x == y) = false := by simpa using Ne.symm hy
      simp [hy, hyx, Function.comp_def, Nat.add_assoc, Nat.add_comm 1]

end ParserChain
