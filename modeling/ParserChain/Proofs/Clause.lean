import ParserChain.Proofs.Delimit
import ParserChain.Proofs.Leaf

/-! Guards as a chain has them: a conjunction of clauses, each of which is one test or a choice
between tests. A guard of that form shows where it ends, although a conjunction is written without
brackets of its own. -/
namespace ParserChain
namespace Guard

/-- A test of one variable. -/
inductive IsTest : Guard → Prop
  | eq (var : Nat) (value : Int) : IsTest (.eq var value)
  | between (var : Nat) (min max : Int) : IsTest (.between var min max)

inductive IsClause : Guard → Prop
  | test {g : Guard} (h : g.IsTest) : IsClause g
  | any {gs : List Guard} (hne : gs ≠ []) (h : ∀ g ∈ gs, g.IsTest) : IsClause (.any gs)

lemma isTest_ofRange (var : Nat) (range : Range) : (ofRange var range).IsTest := by
  unfold ofRange
  split
  · exact .eq ..
  · exact .between ..

lemma isClause_of_anyOf? {gs : List Guard} {g : Guard} (hgs : ∀ k ∈ gs, k.IsTest)
    (h : anyOf? gs = some g) : g.IsClause := by
  match gs with
  | [] => simp [anyOf?] at h
  | [k] =>
    obtain rfl : k = g := by simpa [anyOf?] using h
    exact .test (hgs k List.mem_cons_self)
  | k :: l :: gs =>
    obtain rfl : Guard.any (k :: l :: gs) = g := by simpa [anyOf?] using h
    exact .any (by simp) hgs

/-- The number of guards that a guard joins. -/
def conjuncts : Guard → Nat
  | .always => 0
  | .all guards => guards.length
  | .eq .. | .between .. | .any _ => 1

lemma IsClause.conjuncts_eq {g : Guard} (h : g.IsClause) : g.conjuncts = 1 := by
  cases h with
  | test ht => cases ht <;> rfl
  | any hne ht => rfl

lemma conjuncts_allOf {gs : List Guard} (h : ∀ g ∈ gs, g.IsClause) :
    (allOf gs).conjuncts = gs.length := by
  match gs with
  | [] => rfl
  | [g] => exact (h g List.mem_cons_self).conjuncts_eq
  | g :: k :: gs => rfl

/-- Nothing is tested only where there is no clause. -/
lemma isAlways_allOf {gs : List Guard} (h : ∀ g ∈ gs, g.IsClause) :
    (allOf gs).isAlways = gs.isEmpty := by
  have hcount := conjuncts_allOf h
  cases gs with
  | nil => rfl
  | cons g gs =>
    have hne : allOf (g :: gs) ≠ .always := by
      intro heq
      simp [heq, conjuncts] at hcount
    simpa [isAlways] using hne

lemma text_allOf {gs : List Guard} (hne : gs ≠ []) :
    (allOf gs).text = " and ".intercalate (gs.map text) := by
  match gs with
  | [] => exact absurd rfl hne
  | [g] => simp [allOf]
  | g :: k :: gs => simp [allOf, text, texts_eq_map]

/-- A test begins with a variable or with a number. -/
lemma IsTest.exists_text_eq_cons {g : Guard} (h : g.IsTest) :
    ∃ c cs, g.text.toList = c :: cs ∧ (c = 'x' ∨ c = '-' ∨ c.isDigit = true) := by
  cases h with
  | eq var value =>
    exact ⟨'x', _, by simp only [text, String.toList_append, List.append_assoc]; rfl, .inl rfl⟩
  | between var min max =>
    obtain ⟨c, cs, hcs, hc⟩ := exists_intRepr_eq_cons min
    exact ⟨c, _, by simp only [text, String.toList_append, List.append_assoc, hcs]; rfl, .inr hc⟩

lemma eq_ne_between (var var' : Nat) (value min max : Int) (xs ys : List Char) :
    (eq var value).text.toList ++ xs ≠ (between var' min max).text.toList ++ ys := by
  obtain ⟨c, cs, hcs, hc⟩ := exists_intRepr_eq_cons min
  intro h
  simp only [text, String.toList_append, List.append_assoc, hcs] at h
  obtain rfl : 'x' = c := (List.cons.inj h).1
  simp at hc

/-- A test shows where it ends. -/
lemma IsTest.text_append_inj {g k : Guard} (hg : g.IsTest) (hk : k.IsTest) {xs ys : List Char}
    (hx : EndsNumber xs) (hy : EndsNumber ys) (h : g.text.toList ++ xs = k.text.toList ++ ys) :
    g = k ∧ xs = ys := by
  have heqs (us : List Char) : EndsNumber (" == ".toList ++ us) := endsNumber_cons (by decide) _
  have hvar (us : List Char) : EndsNumber (" <= x".toList ++ us) := endsNumber_cons (by decide) _
  have hmax (us : List Char) : EndsNumber (" <= ".toList ++ us) := endsNumber_cons (by decide) _
  cases hg with
  | eq var value =>
    cases hk with
    | eq var' value' =>
      simp only [text, String.toList_append, List.append_assoc] at h
      obtain ⟨rfl, hvalue⟩ := repr_append_inj (heqs _) (heqs _) (List.append_cancel_left h)
      obtain ⟨rfl, hrest⟩ := intRepr_append_inj hx hy (List.append_cancel_left hvalue)
      exact ⟨rfl, hrest⟩
    | between var' min max => exact (eq_ne_between _ _ _ _ _ _ _ h).elim
  | between var min max =>
    cases hk with
    | eq var' value => exact (eq_ne_between _ _ _ _ _ _ _ h.symm).elim
    | between var' min' max' =>
      simp only [text, String.toList_append, List.append_assoc] at h
      obtain ⟨rfl, hmid⟩ := intRepr_append_inj (hvar _) (hvar _) h
      obtain ⟨rfl, hend⟩ := repr_append_inj (hmax _) (hmax _) (List.append_cancel_left hmid)
      obtain ⟨rfl, hrest⟩ := intRepr_append_inj hx hy (List.append_cancel_left hend)
      exact ⟨rfl, hrest⟩

lemma toList_text_any (gs : List Guard) (xs : List Char) : (any gs).text.toList ++ xs =
    '(' :: ((" or ".intercalate (gs.map text)).toList ++ ')' :: xs) := by
  simp [text, texts_eq_map]

/-- A choice begins with a bracket, and no test does. -/
lemma IsTest.text_ne_any {g : Guard} (h : g.IsTest) (gs : List Guard) (xs ys : List Char) :
    g.text.toList ++ xs ≠ (any gs).text.toList ++ ys := by
  obtain ⟨c, cs, hcs, hc⟩ := h.exists_text_eq_cons
  rw [toList_text_any, hcs]
  intro heq
  obtain rfl : c = '(' := (List.cons.inj heq).1
  simp at hc

/-- A clause shows where it ends. -/
lemma IsClause.text_append_inj {g k : Guard} (hg : g.IsClause) (hk : k.IsClause)
    {xs ys : List Char} (hx : EndsNumber xs) (hy : EndsNumber ys)
    (h : g.text.toList ++ xs = k.text.toList ++ ys) : g = k ∧ xs = ys := by
  cases hg with
  | test hg =>
    cases hk with
    | test hk => exact hg.text_append_inj hk hx hy h
    | any hne hk => exact (hg.text_ne_any _ _ _ h).elim
  | @any gs hne hg =>
    cases hk with
    | test hk => exact (hk.text_ne_any _ _ _ h.symm).elim
    | @any ks hne' hk =>
      rw [toList_text_any, toList_text_any] at h
      have hor (us : List Char) : EndsNumber (" or ".toList ++ us) :=
        endsNumber_cons (by decide) _
      have hclose (us : List Char) : ¬ " or ".toList <+: ')' :: us := by simp
      obtain ⟨rfl, hrest⟩ := intercalate_append_inj hne hne'
        (fun g hg' k hk' _ _ => (hg g hg').text_append_inj (hk k hk')) hor
        (endsNumber_cons (by decide) xs) (endsNumber_cons (by decide) ys) (hclose xs) (hclose ys)
        (List.cons.inj h).2
      exact ⟨rfl, (List.cons.inj hrest).2⟩

/-- A conjunction of clauses shows where it ends, unless another one is joined to it. -/
lemma text_allOf_append_inj {gs ks : List Guard} (hgs : ∀ g ∈ gs, g.IsClause)
    (hks : ∀ k ∈ ks, k.IsClause) (hne : gs ≠ []) (hne' : ks ≠ []) {xs ys : List Char}
    (hx : EndsNumber xs) (hy : EndsNumber ys) (hxs : ¬ " and ".toList <+: xs)
    (hys : ¬ " and ".toList <+: ys)
    (h : (allOf gs).text.toList ++ xs = (allOf ks).text.toList ++ ys) : gs = ks ∧ xs = ys := by
  have hand (us : List Char) : EndsNumber (" and ".toList ++ us) := endsNumber_cons (by decide) _
  rw [text_allOf hne, text_allOf hne'] at h
  exact intercalate_append_inj hne hne'
    (fun g hg k hk _ _ => (hgs g hg).text_append_inj (hks k hk)) hand hx hy hxs hys h

end Guard

/-- Every guard of a segment is a clause. -/
lemma Segment.isClause_of_mem_fuse (var : Nat) {run : List Combinator}
    (hrun : Combinator.anyTraverse run = false) {g : Guard} (hg : g ∈ (fuse var run).guards) :
    g.IsClause := by
  rw [(reads_fuse var run hrun).guards] at hg
  obtain ⟨⟨l, v⟩, -, hl⟩ := List.mem_filterMap.mp hg
  cases l with
  | literal text => simp [Leaf.guard?] at hl
  | unit ranges modifiers =>
    refine Guard.isClause_of_anyOf? ?_ hl
    intro k hk
    obtain ⟨r, -, rfl⟩ := List.mem_map.mp hk
    exact Guard.isTest_ofRange v r

end ParserChain
