import ParserChain.Proofs.ExportText
import ParserChain.Proofs.PatternText

/-! Names, updates and bodies read back from a listing. A name ends where no letter, digit or
underscore follows, as long as its base is made of these. What is done with the accumulator is told
by the first character or by the word in front of a bracket, and a target is told from the two
words of the other bodies by its underscores. -/
namespace ParserChain

/-- A letter, a digit or an underscore. -/
def isIdentChar (c : Char) : Bool := c.isAlphanum || c == '_'

/-- A text made of these, which may be empty. -/
def IsIdent (s : String) : Prop := s.toList.all isIdentChar = true

instance : DecidablePred IsIdent := fun s =>
  inferInstanceAs (Decidable (s.toList.all isIdentChar = true))

lemma isIdent_iff {s : String} : IsIdent s ↔ ∀ c ∈ s.toList, isIdentChar c = true :=
  List.all_eq_true

/-- An identifier shows where it ends. -/
lemma IsIdent.append_inj {s t : String} (hs : IsIdent s) (ht : IsIdent t) {c d : Char}
    (hc : isIdentChar c = false) (hd : isIdentChar d = false) {xs ys : List Char}
    (h : s.toList ++ c :: xs = t.toList ++ d :: ys) : s = t ∧ c = d ∧ xs = ys := by
  rw [isIdent_iff] at hs ht
  obtain ⟨hword, hrest⟩ := run_append_inj hs ht (by simpa using hc) (by simpa using hd) h
  obtain ⟨hcd, hxy⟩ := List.cons.inj hrest
  exact ⟨String.toList_inj.mp hword, hcd, hxy⟩

lemma isIdent_repr (n : Nat) : IsIdent n.repr :=
  isIdent_iff.mpr fun c hc => by simp [isIdentChar, Char.isAlphanum, isDigit_of_mem_repr hc]

namespace Name

lemma underscore_mem_text (n : Name) : '_' ∈ n.text.toList := by
  obtain ⟨base, step, role⟩ := n
  cases role <;> simp [text]

lemma isIdent_text {n : Name} (h : IsIdent n.base) : IsIdent n.text := by
  have hmark : IsIdent "__error" := by decide
  rw [isIdent_iff] at h hmark ⊢
  obtain ⟨base, step, role⟩ := n
  intro c hc
  cases role with
  | link =>
    simp only [toList_text_link, List.mem_append, List.mem_cons, List.not_mem_nil, or_false] at hc
    rcases hc with (hc | rfl) | rfl | hc
    · exact h c hc
    · rfl
    · rfl
    · exact isIdent_iff.mp (isIdent_repr step) c hc
  | catchAll =>
    simp only [toList_text_catchAll, toList_text_link, List.mem_append, List.mem_cons,
      List.not_mem_nil, or_false] at hc
    rcases hc with ((hc | rfl) | rfl | hc) | hc
    · exact h c hc
    · rfl
    · rfl
    · exact isIdent_iff.mp (isIdent_repr step) c hc
    · exact hmark c hc

/-- A name shows where it ends. -/
lemma text_append_inj {m n : Name} (hm : IsIdent m.base) (hn : IsIdent n.base) {c d : Char}
    (hc : isIdentChar c = false) (hd : isIdentChar d = false) {xs ys : List Char}
    (h : m.text.toList ++ c :: xs = n.text.toList ++ d :: ys) : m = n ∧ xs = ys := by
  obtain ⟨htext, -, hrest⟩ := (isIdent_text hm).append_inj (isIdent_text hn) hc hd h
  exact ⟨text_inj.mp htext, hrest⟩

end Name
namespace AccUpdate

/-- The transform that merges, if there is one. -/
def transform? : AccUpdate → Option (Transform Value)
  | .merge f => some f
  | _ => none

/-- Whether the listing begins with a list. -/
def isList : AccUpdate → Bool
  | .empty => true
  | .prepend _ => true
  | _ => false

lemma listing_prepend (terms : List Term) :
    (prepend terms).listing = (Term.list terms).text ++ " ++ acc" := by
  rw [listing, Term.text, Term.texts_eq_map]
  simp [String.append_assoc]

lemma listing_empty : empty.listing = (Term.list []).text := by
  simp [listing, Term.text, Term.texts]

lemma toList_listing_merge (f : Transform Value) :
    (merge f).listing.toList = f.name.toList ++ '(' :: "acc) ++ saved".toList := by
  simp [listing]

lemma head?_listing {a : AccUpdate} (ha : ∀ f, a.transform? = some f → IsIdent f.name)
    (xs : List Char) : (a.listing.toList ++ xs).head? = some '[' ↔ a.isList = true := by
  cases a with
  | keep => simp [listing, isList]
  | empty => simp [listing, isList]
  | prepend terms => simp [listing, isList]
  | merge f =>
    have hf : IsIdent f.name := ha f rfl
    rw [toList_listing_merge, List.append_assoc]
    cases hname : f.name.toList with
    | nil => simp [isList]
    | cons c cs =>
      have hc : isIdentChar c = true := isIdent_iff.mp hf c (hname ▸ List.mem_cons_self)
      have hne : c ≠ '[' := by
        rintro rfl
        simp [isIdentChar] at hc
      simp [isList, hne]

/-- In front of a comma the update of the accumulator is told by its listing. -/
lemma listing_append_inj {a b : AccUpdate} (ha : ∀ f, a.transform? = some f → IsIdent f.name)
    (hb : ∀ f, b.transform? = some f → IsIdent f.name) {xs ys : List Char}
    (h : a.listing.toList ++ ',' :: xs = b.listing.toList ++ ',' :: ys) :
    (a == b) = true ∧ xs = ys := by
  have hlist : a.isList = b.isList := by
    rw [Bool.eq_iff_iff, ← head?_listing ha, h, head?_listing hb]
  have hacc : IsIdent "acc" := by decide
  have hterms {ts us : List Term} {vs ws : List Char}
      (heq : (Term.list ts).text.toList ++ vs = (Term.list us).text.toList ++ ws) :
      ts = us ∧ vs = ws := Term.list_append_inj (Term.delimits_of_mem ts) heq
  cases a with
  | keep =>
    cases b with
    | keep => exact ⟨rfl, by simpa using h⟩
    | merge f =>
      rw [listing, toList_listing_merge, List.append_assoc, List.cons_append] at h
      obtain ⟨-, heq, -⟩ := hacc.append_inj (hb f rfl) (by decide) (by decide) h
      simp at heq
    | _ => simp [isList] at hlist
  | merge f =>
    cases b with
    | keep =>
      rw [listing, toList_listing_merge, List.append_assoc, List.cons_append] at h
      obtain ⟨-, heq, -⟩ := (ha f rfl).append_inj hacc (by decide) (by decide) h
      simp at heq
    | merge g =>
      simp only [toList_listing_merge, List.append_assoc, List.cons_append] at h
      obtain ⟨hname, -, hrest⟩ := (ha f rfl).append_inj (hb g rfl) (by decide) (by decide) h
      exact ⟨by simpa using hname, by simpa using hrest⟩
    | _ => simp [isList] at hlist
  | empty =>
    cases b with
    | empty => exact ⟨rfl, by simpa using h⟩
    | prepend us =>
      rw [listing_empty, listing_prepend, String.toList_append, List.append_assoc] at h
      have hrest := (hterms h).2
      simp at hrest
    | _ => simp [isList] at hlist
  | prepend ts =>
    cases b with
    | empty =>
      rw [listing_empty, listing_prepend, String.toList_append, List.append_assoc] at h
      have hrest := (hterms h).2
      simp at hrest
    | prepend us =>
      simp only [listing_prepend, String.toList_append, List.append_assoc] at h
      obtain ⟨rfl, hrest⟩ := hterms h
      exact ⟨by simp, by simpa using hrest⟩
    | _ => simp [isList] at hlist

end AccUpdate

/-- A stack that is kept and one from which a frame was taken are listed alike. -/
lemma StackUpdate.listing_append_inj {s t : StackUpdate} (hpop : (s == .pop) = (t == .pop))
    {xs ys : List Char} (h : s.listing.toList ++ xs = t.listing.toList ++ ys) :
    s = t ∧ xs = ys := by
  cases s <;> cases t <;> simp_all [listing]

lemma LineMove.listing_append_inj {m n : LineMove} {xs ys : List Char}
    (h : m.listing.toList ++ ',' :: xs = n.listing.toList ++ ',' :: ys) : m = n ∧ xs = ys := by
  have hcomma (us : List Char) : EndsNumber (',' :: us) := endsNumber_cons (by decide) us
  cases m with
  | incoming =>
    cases n with
    | incoming => exact ⟨rfl, by simpa using h⟩
    | advance n => simp [listing] at h
  | advance m =>
    cases n with
    | incoming => simp [listing] at h
    | advance n =>
      simp only [listing, String.toList_append, List.append_assoc] at h
      obtain ⟨hmn, hrest⟩ := repr_append_inj (hcomma xs) (hcomma ys) (List.append_cancel_left h)
      exact ⟨by rw [UInt32.toNat_inj.mp hmn], (List.cons.inj hrest).2⟩

/-- A column that does not move has a text of its own. -/
lemma ColumnMove.listing_append_inj {m n : ColumnMove} {xs ys : List Char}
    (h : m.listing.toList ++ ')' :: xs = n.listing.toList ++ ')' :: ys) : m = n ∧ xs = ys := by
  have hclose (us : List Char) : EndsNumber (')' :: us) := endsNumber_cons (by decide) us
  have hmixed (m n : Counter) (us vs : List Char) :
      (advance m).listing.toList ++ us ≠ (reset n).listing.toList ++ vs := by
    obtain ⟨c, cs, hcs, hc⟩ := exists_repr_eq_cons n.toNat
    have hne : 'c' ≠ c := by
      rintro rfl
      simp at hc
    by_cases hm : m = 0 <;> simp [listing, hm, hcs, hne]
  cases m with
  | advance m =>
    cases n with
    | advance n =>
      by_cases hm : m = 0 <;> by_cases hn : n = 0
      · subst hm hn
        exact ⟨rfl, (List.cons.inj (List.append_cancel_left h)).2⟩
      · simp [listing, hm, hn] at h
      · simp [listing, hm, hn] at h
      · simp only [listing, hm, hn, reduceIte, String.toList_append, List.append_assoc] at h
        obtain ⟨hmn, hrest⟩ := repr_append_inj (hclose xs) (hclose ys)
          (List.append_cancel_left h)
        exact ⟨by rw [UInt32.toNat_inj.mp hmn], (List.cons.inj hrest).2⟩
    | reset n => exact (hmixed _ _ _ _ h).elim
  | reset m =>
    cases n with
    | advance n => exact (hmixed _ _ _ _ h.symm).elim
    | reset n =>
      rw [listing, listing] at h
      obtain ⟨hmn, hrest⟩ := repr_append_inj (hclose xs) (hclose ys) h
      exact ⟨by rw [UInt32.toNat_inj.mp hmn], (List.cons.inj hrest).2⟩

namespace Body

def transform? : Body → Option (Transform Value)
  | .invoke _ acc _ _ => acc.transform?
  | _ => none

/-- Whether a frame is taken from the stack. -/
def pops : Body → Bool
  | .invoke _ _ stack _ => stack == .pop
  | _ => false

/-- What stands in front of the first bracket. -/
def word : Body → String
  | .invoke target _ _ _ => target.text
  | .ok => "ok"
  | .error _ => "error"

/-- What stands behind the first bracket. -/
def arguments : Body → String
  | .invoke _ acc stack move => "rest, " ++ acc.listing ++ ", " ++ stack.listing ++ ", " ++
      move.line.listing ++ ", " ++ move.column.listing ++ ")"
  | .ok => "reverse(acc), rest, line, column)"
  | .error reason => quote reason ++ ", rest, line, column)"

@[simp] lemma arguments_invoke (target : Name) (acc : AccUpdate) (stack : StackUpdate)
    (move : Movement) : (invoke target acc stack move).arguments =
      "rest, " ++ acc.listing ++ ", " ++ stack.listing ++ ", " ++ move.line.listing ++ ", " ++
        move.column.listing ++ ")" := rfl

@[simp] lemma arguments_ok : ok.arguments = "reverse(acc), rest, line, column)" := rfl

@[simp] lemma arguments_error (reason : String) :
    (error reason).arguments = quote reason ++ ", rest, line, column)" := rfl

lemma toList_listing (b : Body) :
    (b.listing .plain).toList = b.word.toList ++ '(' :: b.arguments.toList := by
  cases b <;> simp [listing, word]

/-- The target and the transform of a body are named by identifiers. -/
structure PlainNames (b : Body) : Prop where
  target : ∀ n, b.target? = some n → IsIdent n.base
  transform : ∀ f, b.transform? = some f → IsIdent f.name

lemma PlainNames.isIdent_word {b : Body} (h : b.PlainNames) : IsIdent b.word := by
  cases b with
  | invoke target acc stack move => exact Name.isIdent_text (h.target target rfl)
  | ok =>
    have hok : IsIdent "ok" := by decide
    exact hok
  | error reason =>
    have herror : IsIdent "error" := by decide
    exact herror

lemma invoke_append_inj {target target' : Name} {acc acc' : AccUpdate}
    {stack stack' : StackUpdate} {move move' : Movement}
    (ha : ∀ f, acc.transform? = some f → IsIdent f.name)
    (hb : ∀ f, acc'.transform? = some f → IsIdent f.name)
    (hpop : (stack == .pop) = (stack' == .pop)) {xs ys : List Char}
    (h : (invoke target acc stack move).arguments.toList ++ xs =
      (invoke target' acc' stack' move').arguments.toList ++ ys) :
    (acc == acc') = true ∧ stack = stack' ∧ move = move' ∧ xs = ys := by
  have hsep : ", ".toList = [',', ' '] := by decide
  have hclose : ")".toList = [')'] := by decide
  simp only [arguments_invoke, String.toList_append, List.append_assoc, hsep, hclose,
    List.cons_append, List.nil_append] at h
  obtain ⟨hacc, hstack⟩ := AccUpdate.listing_append_inj ha hb (List.append_cancel_left h)
  obtain ⟨rfl, hline⟩ := StackUpdate.listing_append_inj hpop (List.cons.inj hstack).2
  obtain ⟨hline, hcolumn⟩ := LineMove.listing_append_inj (by simpa using hline)
  obtain ⟨hcolumn, hrest⟩ := ColumnMove.listing_append_inj (List.cons.inj hcolumn).2
  refine ⟨hacc, rfl, ?_, hrest⟩
  cases move
  cases move'
  simp_all

/-- A body shows where it ends, if it is known whether a frame is taken from the stack. -/
lemma listing_append_inj {a b : Body} (ha : a.PlainNames) (hb : b.PlainNames)
    (hpops : a.pops = b.pops) {xs ys : List Char}
    (h : (a.listing .plain).toList ++ xs = (b.listing .plain).toList ++ ys) :
    (a == b) = true ∧ xs = ys := by
  rw [toList_listing, toList_listing, List.append_assoc, List.append_assoc, List.cons_append,
    List.cons_append] at h
  obtain ⟨hword, -, hargs⟩ := ha.isIdent_word.append_inj hb.isIdent_word (by decide) (by decide) h
  have hmixed {s : String} (hs : '_' ∉ s.toList) (n : Name) : n.text ≠ s := by
    rintro rfl
    exact hs n.underscore_mem_text
  have hok (n : Name) : n.text ≠ "ok" := hmixed (by decide) n
  have herror (n : Name) : n.text ≠ "error" := hmixed (by decide) n
  have hne : "ok" ≠ "error" := by decide
  cases a with
  | invoke target acc stack move =>
    cases b with
    | invoke target' acc' stack' move' =>
      obtain rfl := Name.text_inj.mp hword
      obtain ⟨hacc, rfl, rfl, hrest⟩ := invoke_append_inj ha.transform hb.transform hpops hargs
      exact ⟨by simp [hacc], hrest⟩
    | ok => exact (hok target hword).elim
    | error reason => exact (herror target hword).elim
  | ok =>
    cases b with
    | invoke target acc stack move => exact (hok target hword.symm).elim
    | ok => exact ⟨rfl, List.append_cancel_left hargs⟩
    | error reason => exact (hne hword).elim
  | error reason =>
    cases b with
    | invoke target acc stack move => exact (herror target hword.symm).elim
    | ok => exact (hne hword.symm).elim
    | error reason' =>
      simp only [arguments_error, String.toList_append, List.append_assoc] at hargs
      obtain ⟨rfl, hrest⟩ := quote_append_inj hargs
      exact ⟨by simp, List.append_cancel_left hrest⟩

end Body
end ParserChain
