import Mathlib.Tactic.IntervalCases
import ParserChain.Document
import ParserChain.Proofs.Delimit

/-! Documents read back from their texts. An escaped character shows where it ends, and so do a
string, a number, and a list or an object; so two documents with one text are the same. -/
namespace ParserChain
namespace Document

/-- Takes the first character of an escaped text. -/
def unescape? : List Char → Option (Char × List Char)
  | '\\' :: 'b' :: rest => some ('\x08', rest)
  | '\\' :: 't' :: rest => some ('\t', rest)
  | '\\' :: 'n' :: rest => some ('\n', rest)
  | '\\' :: 'f' :: rest => some ('\x0c', rest)
  | '\\' :: 'r' :: rest => some ('\r', rest)
  | '\\' :: 'u' :: '0' :: '0' :: h :: l :: rest =>
    some (Char.ofNat (16 * hexValue h + hexValue l), rest)
  | '\\' :: c :: rest => some (c, rest)
  | c :: rest => some (c, rest)
  | [] => none

lemma unescape?_plain {c : Char} (h : c ≠ '\\') (rest : List Char) :
    unescape? (c :: rest) = some (c, rest) := by
  rw [unescape?.eq_def]
  split <;> simp_all

lemma unescape?_escapeControl {c : Char} (h : c.toNat < 32) (rest : List Char) :
    unescape? (escapeControl c ++ rest) = some (c, rest) := by
  rw [← Char.ofNat_toNat c]
  generalize c.toNat = n at h
  interval_cases n <;> rfl

/-- An escaped character reads back as that character, and nothing of what follows is taken. -/
lemma unescape?_escape (c : Char) (rest : List Char) :
    unescape? (escape c ++ rest) = some (c, rest) := by
  unfold escape
  split
  · rename_i hc
    subst hc
    rfl
  · split
    · rename_i hc
      subst hc
      rfl
    · split
      · rename_i hc
        exact unescape?_escapeControl hc rest
      · rename_i hc _
        exact unescape?_plain hc rest

lemma escape_append_inj {c d : Char} {xs ys : List Char}
    (h : escape c ++ xs = escape d ++ ys) : c = d ∧ xs = ys := by
  have hread := congrArg unescape? h
  simpa [unescape?_escape] using hread

/-- No escaped character begins with a quote. -/
lemma escape_ne_quote (c : Char) (xs ys : List Char) : escape c ++ xs ≠ '"' :: ys := by
  intro h
  have hread := congrArg unescape? h
  rw [unescape?_escape, unescape?_plain (by decide)] at hread
  obtain rfl : c = '"' := (Prod.mk.inj (Option.some.inj hread)).1
  simp [escape] at h

lemma flatMap_escape_append_inj {cs ds xs ys : List Char}
    (h : cs.flatMap escape ++ '"' :: xs = ds.flatMap escape ++ '"' :: ys) : cs = ds ∧ xs = ys := by
  obtain ⟨hkeys, hrest⟩ := flatMap_append_inj (fun c _ d _ us vs => escape_append_inj)
    (fun d us => escape_ne_quote d us xs) (fun c us => escape_ne_quote c us ys) h
  exact ⟨by simpa using hkeys, (List.cons.inj hrest).2⟩

/-- A string shows where it ends. -/
lemma stringText_append_inj {s t : String} {xs ys : List Char}
    (h : (stringText s).toList ++ xs = (stringText t).toList ++ ys) : s = t ∧ xs = ys := by
  simp only [stringText, String.toList_ofList, List.cons_append, List.append_assoc,
    List.nil_append] at h
  obtain ⟨hlist, hrest⟩ := flatMap_escape_append_inj (List.cons.inj h).2
  exact ⟨String.toList_inj.mp hlist, hrest⟩

section Blocks
variable {α : Type} {text : α → String} {opening closing : String} {level : Nat}

lemma toList_newLine (level : Nat) :
    (newLine level).toList = '\n' :: List.replicate (2 * level) ' ' := by
  simp [newLine]

lemma toList_block_nil : (block opening closing level []).toList =
    opening.toList ++ closing.toList := by
  simp [block]

/-- Behind the opening bracket there is a line break, unless the closing one follows. -/
lemma toList_block {ts : List String} (hne : ts ≠ []) : (block opening closing level ts).toList =
    opening.toList ++ ((",".intercalate (ts.map (newLine (level + 1) ++ ·))).toList ++
      ((newLine level).toList ++ closing.toList)) := by
  simp [block, hne]

lemma block_nil_ne_cons {bracket : Char} (hclosing : closing.toList = [bracket])
    (hbracket : bracket ≠ '\n') (t : String) (ts : List String) (xs ys : List Char) :
    (block opening closing level []).toList ++ xs ≠
      (block opening closing level (t :: ts)).toList ++ ys := by
  rw [toList_block_nil, toList_block (List.cons_ne_nil t ts), List.map_cons,
    toList_intercalate_cons]
  simp [hclosing, toList_newLine, hbracket]

/-- A block shows where it ends, since behind an item there is a comma or a line break. -/
lemma block_append_inj {bracket : Char} (hclosing : closing.toList = [bracket])
    (hbracket : bracket ≠ '\n') {as bs : List α} (h : ∀ a ∈ as, Delimits text a)
    {xs ys : List Char} (heq : (block opening closing level (as.map text)).toList ++ xs =
      (block opening closing level (bs.map text)).toList ++ ys) : as = bs ∧ xs = ys := by
  cases as with
  | nil =>
    cases bs with
    | nil => exact ⟨rfl, List.append_cancel_left heq⟩
    | cons b bs => exact (block_nil_ne_cons hclosing hbracket _ _ _ _ heq).elim
  | cons a as =>
    cases bs with
    | nil => exact (block_nil_ne_cons hclosing hbracket _ _ _ _ heq.symm).elim
    | cons b bs =>
      have hbreak (us : List Char) : EndsNumber ((newLine level).toList ++ us) := by
        rw [toList_newLine]
        exact endsNumber_cons (by decide) _
      have hcomma (us : List Char) : EndsNumber (",".toList ++ us) := endsNumber_cons (by decide) us
      have hsep (us : List Char) : ¬ ",".toList <+: (newLine level).toList ++ us := by
        simp [toList_newLine]
      have hitem : ∀ c ∈ a :: as, ∀ d ∈ b :: bs, ∀ us vs, EndsNumber us → EndsNumber vs →
          (newLine (level + 1) ++ text c).toList ++ us =
            (newLine (level + 1) ++ text d).toList ++ vs → c = d ∧ us = vs := by
        intro c hc d _ us vs hus hvs hcd
        rw [String.toList_append, String.toList_append, List.append_assoc, List.append_assoc] at hcd
        exact h c hc d us vs hus hvs (List.append_cancel_left hcd)
      rw [toList_block (by simp), toList_block (by simp), List.map_map, List.map_map] at heq
      simp only [List.append_assoc] at heq
      obtain ⟨hitems, hrest⟩ := intercalate_append_inj (List.cons_ne_nil a as)
        (List.cons_ne_nil b bs) hitem hcomma (hbreak _) (hbreak _) (hsep _) (hsep _)
        (List.append_cancel_left heq)
      exact ⟨hitems, List.append_cancel_left (List.append_cancel_left hrest)⟩

end Blocks

lemma itemTexts_eq_map (level : Nat) (ds : List Document) :
    itemTexts level ds = ds.map (textAt level) := by
  induction ds with
  | nil => rfl
  | cons d ds ih => simp [itemTexts, ih]

lemma fieldTexts_eq_map (level : Nat) (fs : List (String × Document)) :
    fieldTexts level fs = fs.map (fieldText level) := by
  induction fs with
  | nil => rfl
  | cons f fs ih => simp [fieldTexts, ih]

/-- The number of the form of a document. -/
def form : Document → Nat
  | .bool _ => 0
  | .int _ => 1
  | .str _ => 2
  | .list _ => 3
  | .object _ => 4

/-- The number of the form that begins with a character. -/
def formOf (c : Char) : Nat :=
  if c = 't' ∨ c = 'f' then 0
  else if c = '"' then 2
  else if c = '[' then 3
  else if c = '\x7b' then 4
  else 1

/-- The first character of a document tells its form. -/
lemma exists_textAt_eq_cons (level : Nat) (d : Document) :
    ∃ c cs, (d.textAt level).toList = c :: cs ∧ formOf c = d.form := by
  cases d with
  | bool value =>
    cases value with
    | false => exact ⟨'f', "alse".toList, by rw [textAt]; rfl, rfl⟩
    | true => exact ⟨'t', "rue".toList, by rw [textAt]; rfl, rfl⟩
  | int n =>
    cases n with
    | ofNat k =>
      obtain ⟨c, cs, hcs, hc⟩ := exists_repr_eq_cons k
      refine ⟨c, cs, hcs, ?_⟩
      have hne {e : Char} (he : e.isDigit = false) : c ≠ e := by
        rintro rfl
        simp [he] at hc
      simp [formOf, form, hne]
    | negSucc k => exact ⟨'-', _, toList_intRepr_negSucc k, rfl⟩
  | str s => exact ⟨'"', _, by rw [textAt, stringText, String.toList_ofList], rfl⟩
  | list ds =>
    cases ds with
    | nil => exact ⟨'[', [']'], by rw [textAt, itemTexts, toList_block_nil]; rfl, rfl⟩
    | cons d ds => exact ⟨'[', _, by rw [textAt, itemTexts, toList_block (by simp)]; rfl, rfl⟩
  | object fs =>
    cases fs with
    | nil => exact ⟨'\x7b', ['\x7d'], by rw [textAt, fieldTexts, toList_block_nil]; rfl, rfl⟩
    | cons f fs => exact ⟨'\x7b', _, by rw [textAt, fieldTexts, toList_block (by simp)]; rfl, rfl⟩

lemma form_eq {level : Nat} {d e : Document} {xs ys : List Char}
    (h : (d.textAt level).toList ++ xs = (e.textAt level).toList ++ ys) : d.form = e.form := by
  obtain ⟨c, cs, hcs, hc⟩ := exists_textAt_eq_cons level d
  obtain ⟨b, bs, hbs, hb⟩ := exists_textAt_eq_cons level e
  rw [hcs, hbs] at h
  rw [← hc, ← hb, (List.cons.inj h).1]

lemma bool_append_inj {level : Nat} {a b : Bool} {xs ys : List Char}
    (h : ((bool a).textAt level).toList ++ xs = ((bool b).textAt level).toList ++ ys) :
    a = b ∧ xs = ys := by
  cases a <;> cases b <;> simp_all [textAt]

mutual
/-- The text of a document shows where it ends. The induction is on the document on the left; the
one on the right has the same form, since its text begins alike. -/
theorem delimits_textAt : (d : Document) → (level : Nat) → Delimits (textAt level) d
  | .bool a, level => by
    intro e xs ys hx hy h
    have hform := form_eq h
    cases e with
    | bool b =>
      obtain ⟨rfl, hrest⟩ := bool_append_inj h
      exact ⟨rfl, hrest⟩
    | _ => simp [form] at hform
  | .int m, level => by
    intro e xs ys hx hy h
    have hform := form_eq h
    cases e with
    | int n =>
      rw [textAt, textAt] at h
      obtain ⟨rfl, hrest⟩ := intRepr_append_inj hx hy h
      exact ⟨rfl, hrest⟩
    | _ => simp [form] at hform
  | .str s, level => by
    intro e xs ys hx hy h
    have hform := form_eq h
    cases e with
    | str t =>
      rw [textAt, textAt] at h
      obtain ⟨rfl, hrest⟩ := stringText_append_inj h
      exact ⟨rfl, hrest⟩
    | _ => simp [form] at hform
  | .list ds, level => by
    intro e xs ys hx hy h
    have hform := form_eq h
    cases e with
    | list es =>
      rw [textAt, textAt, itemTexts_eq_map, itemTexts_eq_map] at h
      obtain ⟨rfl, hrest⟩ := block_append_inj (show "]".toList = [']'] from rfl) (by decide)
        (delimits_of_mem ds (level + 1)) h
      exact ⟨rfl, hrest⟩
    | _ => simp [form] at hform
  | .object fs, level => by
    intro e xs ys hx hy h
    have hform := form_eq h
    cases e with
    | object gs =>
      rw [textAt, textAt, fieldTexts_eq_map, fieldTexts_eq_map] at h
      obtain ⟨rfl, hrest⟩ := block_append_inj (show "\x7d".toList = ['\x7d'] from rfl) (by decide)
        (delimits_fields fs (level + 1)) h
      exact ⟨rfl, hrest⟩
    | _ => simp [form] at hform

theorem delimits_of_mem : (ds : List Document) → (level : Nat) →
    ∀ d ∈ ds, Delimits (textAt level) d
  | [], level => by simp
  | d :: ds, level =>
    List.forall_mem_cons.mpr ⟨delimits_textAt d level, delimits_of_mem ds level⟩

theorem delimits_fields : (fs : List (String × Document)) → (level : Nat) →
    ∀ f ∈ fs, Delimits (fieldText level) f
  | [], level => by simp
  | f :: fs, level =>
    List.forall_mem_cons.mpr ⟨delimits_fieldText f level, delimits_fields fs level⟩

theorem delimits_fieldText : (f : String × Document) → (level : Nat) →
    Delimits (fieldText level) f
  | (key, value), level => by
    rintro ⟨key', value'⟩ xs ys hx hy h
    simp only [fieldText, String.toList_append, List.append_assoc] at h
    obtain ⟨rfl, htail⟩ := stringText_append_inj h
    obtain ⟨rfl, hrest⟩ := delimits_textAt value level value' xs ys hx hy
      (List.append_cancel_left htail)
    exact ⟨rfl, hrest⟩
end

/-- Documents with the same text are the same. -/
theorem text_inj {d e : Document} : d.text = e.text ↔ d = e := by
  refine ⟨fun h => ?_, fun h => h ▸ rfl⟩
  have hlist : d.text.toList ++ [] = e.text.toList ++ [] := by rw [h]
  exact (delimits_textAt d 0 e [] [] endsNumber_nil endsNumber_nil hlist).1

end Document
end ParserChain
