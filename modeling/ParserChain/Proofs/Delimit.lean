import Mathlib.Tactic.Lemma
import ParserChain.Name

/-! Numbers and names read back from their texts. A number ends where no digit follows, and the last
underscore of a name stands in front of its step or of the mark of a catch-all; so neither the base
of a name nor what follows a number can be taken for a part of the number. -/
namespace ParserChain

/-- A number in front of this text ends there. -/
def EndsNumber (rest : List Char) : Prop := ∀ c ∈ rest.head?, c.isDigit = false

lemma endsNumber_nil : EndsNumber [] := by simp [EndsNumber]

lemma endsNumber_cons {c : Char} (h : c.isDigit = false) (cs : List Char) :
    EndsNumber (c :: cs) := by
  simpa [EndsNumber] using h

lemma takeWhile_eq_nil {p : Char → Bool} {rest : List Char} (h : ∀ c ∈ rest.head?, p c = false) :
    rest.takeWhile p = [] := by
  cases rest with
  | nil => rfl
  | cons c cs =>
    have hc : p c = false := h c rfl
    simp [hc]

/-- A run of characters of one kind ends where another kind follows. -/
lemma run_append_inj {p : Char → Bool} {us vs xs ys : List Char} (hu : ∀ c ∈ us, p c = true)
    (hv : ∀ c ∈ vs, p c = true) (hx : ∀ c ∈ xs.head?, p c = false)
    (hy : ∀ c ∈ ys.head?, p c = false) (h : us ++ xs = vs ++ ys) : us = vs ∧ xs = ys := by
  have heq : us = vs := by
    have htake := congrArg (List.takeWhile p) h
    rwa [List.takeWhile_append_of_pos hu, List.takeWhile_append_of_pos hv, takeWhile_eq_nil hx,
      takeWhile_eq_nil hy, List.append_nil, List.append_nil] at htake
  exact ⟨heq, List.append_cancel_left (heq ▸ h)⟩

lemma isDigit_of_mem_repr {n : Nat} {c : Char} (h : c ∈ n.repr.toList) : c.isDigit = true := by
  rw [Nat.toList_repr] at h
  exact Nat.isDigit_of_mem_toDigits (by decide) (by decide) h

lemma repr_toList_inj {m n : Nat} (h : m.repr.toList = n.repr.toList) : m = n := by
  rw [Nat.toList_repr, Nat.toList_repr] at h
  have hread := congrArg (fun ds => Nat.ofDigitChars 10 ds 0) h
  simpa [Nat.ofDigitChars_toDigits] using hread

/-- A number shows where it ends. -/
lemma repr_append_inj {m n : Nat} {xs ys : List Char} (hx : EndsNumber xs) (hy : EndsNumber ys)
    (h : m.repr.toList ++ xs = n.repr.toList ++ ys) : m = n ∧ xs = ys := by
  obtain ⟨hdigits, hrest⟩ := run_append_inj (fun _ => isDigit_of_mem_repr)
    (fun _ => isDigit_of_mem_repr) hx hy h
  exact ⟨repr_toList_inj hdigits, hrest⟩

lemma exists_repr_eq_cons (n : Nat) : ∃ c cs, n.repr.toList = c :: cs ∧ c.isDigit = true := by
  have hne : n.repr.toList ≠ [] := by simp [Nat.toList_repr]
  obtain ⟨c, cs, hcs⟩ := List.exists_cons_of_ne_nil hne
  exact ⟨c, cs, hcs, isDigit_of_mem_repr (hcs ▸ List.mem_cons_self)⟩

lemma toList_intRepr_negSucc (n : Nat) :
    (Int.negSucc n).repr.toList = '-' :: (n + 1).repr.toList := by
  change ("-" ++ (n + 1).repr).toList = _
  simp

/-- A number with a sign shows where it ends. -/
lemma intRepr_append_inj {m n : Int} {xs ys : List Char} (hx : EndsNumber xs) (hy : EndsNumber ys)
    (h : m.repr.toList ++ xs = n.repr.toList ++ ys) : m = n ∧ xs = ys := by
  have hsign (k l : Nat) (us vs : List Char) :
      k.repr.toList ++ us ≠ (Int.negSucc l).repr.toList ++ vs := by
    intro heq
    obtain ⟨c, cs, hcs, hc⟩ := exists_repr_eq_cons k
    rw [hcs, toList_intRepr_negSucc] at heq
    obtain rfl : c = '-' := (List.cons.inj heq).1
    simp at hc
  cases m with
  | ofNat k =>
    cases n with
    | ofNat l =>
      obtain ⟨rfl, hrest⟩ := repr_append_inj (m := k) (n := l) hx hy h
      exact ⟨rfl, hrest⟩
    | negSucc l => exact (hsign k l xs ys h).elim
  | negSucc k =>
    cases n with
    | ofNat l => exact (hsign l k ys xs h.symm).elim
    | negSucc l =>
      rw [toList_intRepr_negSucc, toList_intRepr_negSucc] at h
      obtain ⟨hkl, hrest⟩ := repr_append_inj hx hy (List.cons.inj h).2
      obtain rfl : k = l := by omega
      exact ⟨rfl, hrest⟩

lemma exists_intRepr_eq_cons (n : Int) :
    ∃ c cs, n.repr.toList = c :: cs ∧ (c = '-' ∨ c.isDigit = true) := by
  cases n with
  | ofNat k =>
    obtain ⟨c, cs, hcs, hc⟩ := exists_repr_eq_cons k
    exact ⟨c, cs, hcs, .inr hc⟩
  | negSucc k => exact ⟨'-', _, toList_intRepr_negSucc k, .inl rfl⟩

/-- The value of a digit to the base sixteen. -/
def hexValue (c : Char) : Nat := if c.isDigit then c.toNat - 48 else c.toNat - 87

section Items
variable {α β : Type} {text : α → String}

/-- The text of this item shows where it ends, unless a digit follows. -/
def Delimits (text : α → String) (a : α) : Prop :=
  ∀ (b : α) (xs ys : List Char), EndsNumber xs → EndsNumber ys →
    (text a).toList ++ xs = (text b).toList ++ ys → a = b ∧ xs = ys

/-- Items that show where they end are told apart up to a text that begins like none of them. -/
lemma flatMap_append_inj {code : α → List Char} {key : α → β} {as bs : List α} {xs ys : List Char}
    (hcode : ∀ a ∈ as, ∀ b ∈ bs, ∀ us vs, code a ++ us = code b ++ vs → key a = key b ∧ us = vs)
    (hxs : ∀ b us, code b ++ us ≠ xs) (hys : ∀ a us, code a ++ us ≠ ys)
    (h : as.flatMap code ++ xs = bs.flatMap code ++ ys) : as.map key = bs.map key ∧ xs = ys := by
  induction as generalizing bs with
  | nil =>
    cases bs with
    | nil => exact ⟨rfl, h⟩
    | cons b bs =>
      rw [List.flatMap_cons, List.append_assoc] at h
      exact (hxs b _ h.symm).elim
  | cons a as ih =>
    rw [List.flatMap_cons, List.append_assoc] at h
    cases bs with
    | nil => exact (hys a _ h).elim
    | cons b bs =>
      rw [List.flatMap_cons, List.append_assoc] at h
      obtain ⟨hkey, htail⟩ := hcode a List.mem_cons_self b List.mem_cons_self _ _ h
      obtain ⟨hkeys, hrest⟩ := ih
        (fun c hc d hd => hcode c (List.mem_cons_of_mem a hc) d (List.mem_cons_of_mem b hd)) htail
      exact ⟨by rw [List.map_cons, List.map_cons, hkey, hkeys], hrest⟩

/-- Items that follow a separator each are told apart up to a text without one in front. -/
lemma separated_append_inj {sep : List Char} {as bs : List α} {xs ys : List Char}
    (hitem : ∀ a ∈ as, ∀ b ∈ bs, ∀ us vs, EndsNumber us → EndsNumber vs →
      (text a).toList ++ us = (text b).toList ++ vs → a = b ∧ us = vs)
    (hsep : ∀ us, EndsNumber (sep ++ us)) (hx : EndsNumber xs) (hy : EndsNumber ys)
    (hxs : ¬ sep <+: xs) (hys : ¬ sep <+: ys)
    (h : (as.flatMap fun a => sep ++ (text a).toList) ++ xs =
      (bs.flatMap fun b => sep ++ (text b).toList) ++ ys) : as = bs ∧ xs = ys := by
  have hends (cs : List α) {us : List Char} (hu : EndsNumber us) :
      EndsNumber ((cs.flatMap fun c => sep ++ (text c).toList) ++ us) := by
    cases cs with
    | nil => exact hu
    | cons c cs =>
      rw [List.flatMap_cons, List.append_assoc, List.append_assoc]
      exact hsep _
  induction as generalizing bs with
  | nil =>
    cases bs with
    | nil => exact ⟨rfl, h⟩
    | cons b bs =>
      rw [List.flatMap_cons, List.append_assoc, List.append_assoc] at h
      exact (hxs ⟨_, h.symm⟩).elim
  | cons a as ih =>
    rw [List.flatMap_cons, List.append_assoc, List.append_assoc] at h
    cases bs with
    | nil => exact (hys ⟨_, h⟩).elim
    | cons b bs =>
      rw [List.flatMap_cons, List.append_assoc, List.append_assoc] at h
      obtain ⟨rfl, htail⟩ := hitem a List.mem_cons_self b List.mem_cons_self _ _ (hends as hx)
        (hends bs hy) (List.append_cancel_left h)
      obtain ⟨rfl, hrest⟩ := ih
        (fun c hc d hd => hitem c (List.mem_cons_of_mem a hc) d (List.mem_cons_of_mem a hd)) htail
      exact ⟨rfl, hrest⟩

lemma toList_intercalate_cons (sep t : String) (ts : List String) :
    (sep.intercalate (t :: ts)).toList =
      t.toList ++ ts.flatMap fun u => sep.toList ++ u.toList := by
  induction ts generalizing t with
  | nil => simp
  | cons u us ih => simp [String.intercalate_cons_cons, ih u]

/-- Items between separators are told apart in the same way, unless there are none. -/
lemma intercalate_append_inj {sep : String} {as bs : List α} {xs ys : List Char}
    (has : as ≠ []) (hbs : bs ≠ [])
    (hitem : ∀ a ∈ as, ∀ b ∈ bs, ∀ us vs, EndsNumber us → EndsNumber vs →
      (text a).toList ++ us = (text b).toList ++ vs → a = b ∧ us = vs)
    (hsep : ∀ us, EndsNumber (sep.toList ++ us)) (hx : EndsNumber xs) (hy : EndsNumber ys)
    (hxs : ¬ sep.toList <+: xs) (hys : ¬ sep.toList <+: ys)
    (h : (sep.intercalate (as.map text)).toList ++ xs =
      (sep.intercalate (bs.map text)).toList ++ ys) : as = bs ∧ xs = ys := by
  have hflat (cs : List α) (hne : cs ≠ []) : sep.toList ++ (sep.intercalate (cs.map text)).toList =
      cs.flatMap fun c => sep.toList ++ (text c).toList := by
    obtain ⟨c, cs, rfl⟩ := List.exists_cons_of_ne_nil hne
    rw [List.map_cons, toList_intercalate_cons, List.flatMap_map, List.flatMap_cons,
      List.append_assoc]
  refine separated_append_inj hitem hsep hx hy hxs hys ?_
  rw [← hflat as has, ← hflat bs hbs, List.append_assoc, List.append_assoc, h]

end Items

/-- The last occurrence of an element parts a list in one way only. -/
lemma append_last_inj {α : Type} {a : α} {xs ys us vs : List α} (hu : a ∉ us) (hv : a ∉ vs)
    (h : xs ++ a :: us = ys ++ a :: vs) : xs = ys ∧ us = vs := by
  rcases List.append_eq_append_iff.mp h with ⟨mid, rfl, htail⟩ | ⟨mid, rfl, htail⟩
  · cases mid with
    | nil => exact ⟨by simp, (List.cons.inj htail).2⟩
    | cons b mid =>
      obtain ⟨-, rfl⟩ := List.cons.inj htail
      simp at hu
  · cases mid with
    | nil => exact ⟨by simp, (List.cons.inj htail).2.symm⟩
    | cons b mid =>
      obtain ⟨-, rfl⟩ := List.cons.inj htail
      simp at hv

namespace Name

lemma underscore_not_mem_repr (n : Nat) : '_' ∉ n.repr.toList := by
  intro h
  have hdigit := isDigit_of_mem_repr h
  simp at hdigit

lemma toList_text_link (base : String) (step : Nat) : (⟨base, step, .link⟩ : Name).text.toList =
    (base.toList ++ ['_']) ++ '_' :: step.repr.toList := by
  simp [text]

lemma toList_text_catchAll (base : String) (step : Nat) :
    (⟨base, step, .catchAll⟩ : Name).text.toList =
      (⟨base, step, .link⟩ : Name).text.toList ++ "__error".toList := by
  simp [text]

lemma text_link_ne_catchAll (base base' : String) (step step' : Nat) :
    (⟨base, step, .link⟩ : Name).text.toList ≠ (⟨base', step', .catchAll⟩ : Name).text.toList := by
  intro h
  have hmark : "__error".toList = ['_', '_'] ++ "error".toList := by decide
  rw [toList_text_link, toList_text_catchAll, hmark] at h
  have hparts : (base.toList ++ ['_']) ++ '_' :: step.repr.toList =
      ((⟨base', step', .link⟩ : Name).text.toList ++ ['_']) ++ '_' :: "error".toList := by
    simpa using h
  have hlast := append_last_inj (underscore_not_mem_repr step) (by decide) hparts
  obtain ⟨c, cs, hcs, hc⟩ := exists_repr_eq_cons step
  obtain rfl : c = 'e' := (List.cons.inj (hcs.symm.trans hlast.2)).1
  simp at hc

lemma text_link_inj {base base' : String} {step step' : Nat}
    (h : (⟨base, step, .link⟩ : Name).text.toList = (⟨base', step', .link⟩ : Name).text.toList) :
    base = base' ∧ step = step' := by
  rw [toList_text_link, toList_text_link] at h
  obtain ⟨hbase, hstep⟩ := append_last_inj (underscore_not_mem_repr step)
    (underscore_not_mem_repr step') h
  exact ⟨String.toList_inj.mp (List.append_cancel_right hbase), repr_toList_inj hstep⟩

/-- Different names have different texts, whatever their bases are. -/
theorem text_inj {m n : Name} : m.text = n.text ↔ m = n := by
  refine ⟨fun h => ?_, fun h => h ▸ rfl⟩
  obtain ⟨base, step, role⟩ := m
  obtain ⟨base', step', role'⟩ := n
  have hlist := congrArg String.toList h
  cases role with
  | link =>
    cases role' with
    | link =>
      obtain ⟨rfl, rfl⟩ := text_link_inj hlist
      rfl
    | catchAll => exact (text_link_ne_catchAll _ _ _ _ hlist).elim
  | catchAll =>
    cases role' with
    | link => exact (text_link_ne_catchAll _ _ _ _ hlist.symm).elim
    | catchAll =>
      rw [toList_text_catchAll, toList_text_catchAll] at hlist
      obtain ⟨rfl, rfl⟩ := text_link_inj (List.append_cancel_right hlist)
      rfl

end Name
end ParserChain
