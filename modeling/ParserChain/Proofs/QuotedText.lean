import ParserChain.Proofs.Delimit
import ParserChain.Value

/-! Quoted texts and terms read back. An escaped character shows where it ends and holds no quote
that could close the text, so a quoted text shows where it ends, whatever follows. Each form of
term begins with a character of its own, and terms with one text are the same. -/
namespace ParserChain

lemma hexValue_digitChar : ∀ d < 16, hexValue (Nat.digitChar d) = d := by decide

/-- The number that digits to the base sixteen write. -/
def hexNumber (digits : List Char) : Nat := digits.foldl (fun n c => 16 * n + hexValue c) 0

lemma hexNumber_concat (digits : List Char) (c : Char) :
    hexNumber (digits ++ [c]) = 16 * hexNumber digits + hexValue c := by
  simp [hexNumber]

lemma hexNumber_toDigits (n : Nat) : hexNumber (Nat.toDigits 16 n) = n := by
  induction n using Nat.strongRecOn with
  | _ n ih =>
    rw [Nat.toDigits_eq_if (by decide)]
    split
    · rename_i hn
      simp [hexNumber, hexValue_digitChar n hn]
    · rename_i hn
      rw [hexNumber_concat, ih (n / 16) (by omega), hexValue_digitChar (n % 16) (by omega)]
      exact Nat.div_add_mod n 16

/-- What holds of each of the sixteen digits holds of the digits of a number. -/
lemma of_mem_toDigits {p : Char → Bool} (hp : ∀ d < 16, p (Nat.digitChar d) = true) {n : Nat}
    {c : Char} (h : c ∈ Nat.toDigits 16 n) : p c = true := by
  induction n using Nat.strongRecOn with
  | _ n ih =>
    rw [Nat.toDigits_eq_if (by decide)] at h
    split at h
    · rename_i hn
      rw [List.mem_singleton.mp h]
      exact hp n hn
    · rename_i hn
      rcases List.mem_append.mp h with h | h
      · exact ih (n / 16) (by omega) h
      · rw [List.mem_singleton.mp h]
        exact hp (n % 16) (by omega)

lemma isAlphanum_of_mem_toDigits {n : Nat} {c : Char} (h : c ∈ Nat.toDigits 16 n) :
    c.isAlphanum = true :=
  of_mem_toDigits (by decide) h

/-- The characters that have a short form, each with the letter that stands for it. -/
def shortForms : List (Char × Char) :=
  [('\x00', '0'), ('\t', 't'), ('\r', 'r'), ('\n', 'n'), ('"', '"'), ('\\', '\\')]

/-- All the ways in which a character is written. -/
lemma escape_cases (c : Char) :
    (∃ d, (c, d) ∈ shortForms ∧ escape c = ['\\', d]) ∨
    (isShown c = true ∧ c ≠ '"' ∧ c ≠ '\\' ∧ escape c = [c]) ∨ escape c = codeEscape c := by
  unfold escape
  split
  · exact .inl ⟨'0', by simp [shortForms]⟩
  · exact .inl ⟨'t', by simp [shortForms]⟩
  · exact .inl ⟨'r', by simp [shortForms]⟩
  · exact .inl ⟨'n', by simp [shortForms]⟩
  · exact .inl ⟨'"', by simp [shortForms]⟩
  · exact .inl ⟨'\\', by simp [shortForms]⟩
  · rename_i hquote hbackslash
    cases hc : isShown c with
    | true => exact .inr (.inl ⟨rfl, hquote, hbackslash, rfl⟩)
    | false => exact .inr (.inr rfl)

/-- Takes the first character of a text between quotes. -/
def unquote? : List Char → Option (Char × List Char)
  | '\\' :: '0' :: rest => some ('\x00', rest)
  | '\\' :: 't' :: rest => some ('\t', rest)
  | '\\' :: 'r' :: rest => some ('\r', rest)
  | '\\' :: 'n' :: rest => some ('\n', rest)
  | '\\' :: 'u' :: '\x7b' :: rest =>
    some (Char.ofNat (hexNumber (rest.takeWhile Char.isAlphanum)),
      (rest.dropWhile Char.isAlphanum).tail)
  | '\\' :: c :: rest => some (c, rest)
  | c :: rest => some (c, rest)
  | [] => none

lemma unquote?_plain {c : Char} (h : c ≠ '\\') (rest : List Char) :
    unquote? (c :: rest) = some (c, rest) := by
  rw [unquote?.eq_def]
  split <;> simp_all

lemma unquote?_shortForm {c d : Char} (h : (c, d) ∈ shortForms) (rest : List Char) :
    unquote? ('\\' :: d :: rest) = some (c, rest) := by
  simp only [shortForms, List.mem_cons, List.not_mem_nil, or_false, Prod.mk.injEq] at h
  rcases h with ⟨rfl, rfl⟩ | ⟨rfl, rfl⟩ | ⟨rfl, rfl⟩ | ⟨rfl, rfl⟩ | ⟨rfl, rfl⟩ | ⟨rfl, rfl⟩ <;> rfl

lemma unquote?_codeEscape (c : Char) (rest : List Char) :
    unquote? (codeEscape c ++ rest) = some (c, rest) := by
  have hdigits : ∀ d ∈ Nat.toDigits 16 c.toNat, d.isAlphanum = true :=
    fun _ => isAlphanum_of_mem_toDigits
  have hcode : codeEscape c ++ rest =
      '\\' :: 'u' :: '\x7b' :: (Nat.toDigits 16 c.toNat ++ '\x7d' :: rest) := by
    simp [codeEscape]
  rw [hcode, unquote?, List.takeWhile_append_of_pos hdigits, List.dropWhile_append_of_pos hdigits]
  simp [hexNumber_toDigits]

/-- An escaped character reads back as that character, and nothing of what follows is taken. -/
lemma unquote?_escape (c : Char) (rest : List Char) :
    unquote? (escape c ++ rest) = some (c, rest) := by
  rcases escape_cases c with ⟨d, hd, hesc⟩ | ⟨-, -, hc, hesc⟩ | hesc
  · rw [hesc]
    exact unquote?_shortForm hd rest
  · rw [hesc]
    exact unquote?_plain hc rest
  · rw [hesc]
    exact unquote?_codeEscape c rest

lemma escape_append_inj {c d : Char} {xs ys : List Char}
    (h : escape c ++ xs = escape d ++ ys) : c = d ∧ xs = ys := by
  have hread := congrArg unquote? h
  simpa [unquote?_escape] using hread

/-- No escaped character begins with a quote. -/
lemma escape_ne_quote (c : Char) (xs ys : List Char) : escape c ++ xs ≠ '"' :: ys := by
  intro h
  have hread := congrArg unquote? h
  rw [unquote?_escape, unquote?_plain (by decide)] at hread
  obtain rfl : c = '"' := (Prod.mk.inj (Option.some.inj hread)).1
  simp [escape] at h

/-- A quoted text shows where it ends, whatever follows. -/
lemma quote_append_inj {s t : String} {xs ys : List Char}
    (h : (quote s).toList ++ xs = (quote t).toList ++ ys) : s = t ∧ xs = ys := by
  simp only [toList_quote, List.cons_append, List.append_assoc, List.nil_append] at h
  obtain ⟨hkeys, hrest⟩ := flatMap_append_inj (fun c _ d _ us vs => escape_append_inj)
    (fun d us => escape_ne_quote d us xs) (fun c us => escape_ne_quote c us ys)
    (List.cons.inj h).2
  exact ⟨String.toList_inj.mp (by simpa using hkeys), (List.cons.inj hrest).2⟩

/-- The control characters of both sets. -/
def isControl (c : Char) : Bool := c.toNat < 0x20 || (0x7f ≤ c.toNat && c.toNat ≤ 0x9f)

lemma isControl_of_mem_toDigits {n : Nat} {c : Char} (h : c ∈ Nat.toDigits 16 n) :
    isControl c = false := by
  have hdigit := of_mem_toDigits (p := fun c => !isControl c) (by decide) h
  simpa using hdigit

lemma isControl_of_isShown {c : Char} (h : isShown c = true) : isControl c = false := by
  unfold isShown at h
  unfold isControl
  split at h
  · simp at h ⊢
    omega
  · rename_i hlo
    have hhi : ¬ c.toNat ≤ 0x9f := by
      intro hle
      have hin : Unprintable.contains c.toNat = true :=
        Unprintable.contains_of_le_a0 (by omega) (by omega)
      simp [hin] at h
    simp
    omega

lemma isControl_of_mem_escape {c d : Char} (h : d ∈ escape c) : isControl d = false := by
  rcases escape_cases c with ⟨e, he, hesc⟩ | ⟨hc, -, -, hesc⟩ | hesc
  · rw [hesc] at h
    simp only [shortForms, List.mem_cons, List.not_mem_nil, or_false, Prod.mk.injEq] at he h
    rcases h with rfl | rfl
    · decide
    · rcases he with ⟨-, rfl⟩ | ⟨-, rfl⟩ | ⟨-, rfl⟩ | ⟨-, rfl⟩ | ⟨-, rfl⟩ | ⟨-, rfl⟩ <;> decide
  · rw [hesc, List.mem_singleton] at h
    exact h ▸ isControl_of_isShown hc
  · rw [hesc] at h
    simp only [codeEscape, List.mem_cons, List.mem_append, List.not_mem_nil, or_false] at h
    rcases h with rfl | rfl | rfl | h | rfl
    · decide
    · decide
    · decide
    · exact isControl_of_mem_toDigits h
    · decide

lemma any_isControl_quote (s : String) : (quote s).toList.any isControl = false := by
  rw [List.any_eq_false, toList_quote]
  intro d hd
  simp only [List.mem_cons, List.mem_append, List.mem_flatMap, List.not_mem_nil, or_false] at hd
  rcases hd with rfl | ⟨c, -, hd⟩ | rfl
  · decide
  · simp [isControl_of_mem_escape hd]
  · decide

/-- The number of double quotes that no backslash stands for: a backslash takes the character
behind it along. -/
def bareQuotes : List Char → Nat
  | '\\' :: _ :: rest => bareQuotes rest
  | '"' :: rest => bareQuotes rest + 1
  | _ :: rest => bareQuotes rest
  | [] => 0

lemma bareQuotes_plain {c : Char} (hq : c ≠ '"') (hb : c ≠ '\\') (rest : List Char) :
    bareQuotes (c :: rest) = bareQuotes rest := by
  rw [bareQuotes.eq_def]
  split <;> simp_all

lemma bareQuotes_alphanum {cs : List Char} (h : ∀ c ∈ cs, c.isAlphanum = true) (rest : List Char) :
    bareQuotes (cs ++ rest) = bareQuotes rest := by
  induction cs with
  | nil => rfl
  | cons c cs ih =>
    obtain ⟨hc, hcs⟩ := List.forall_mem_cons.mp h
    rw [List.cons_append, bareQuotes_plain, ih hcs]
    · rintro rfl
      simp at hc
    · rintro rfl
      simp at hc

lemma bareQuotes_escape (c : Char) (rest : List Char) :
    bareQuotes (escape c ++ rest) = bareQuotes rest := by
  rcases escape_cases c with ⟨d, -, hesc⟩ | ⟨-, hq, hb, hesc⟩ | hesc
  · rw [hesc]
    rfl
  · rw [hesc]
    exact bareQuotes_plain hq hb rest
  · have hcode : escape c ++ rest =
        '\\' :: 'u' :: '\x7b' :: (Nat.toDigits 16 c.toNat ++ '\x7d' :: rest) := by
      simp [hesc, codeEscape]
    rw [hcode, bareQuotes, bareQuotes_plain (by decide) (by decide),
      bareQuotes_alphanum fun _ => isAlphanum_of_mem_toDigits,
      bareQuotes_plain (by decide) (by decide)]

lemma bareQuotes_flatMap_escape (cs rest : List Char) :
    bareQuotes (cs.flatMap escape ++ rest) = bareQuotes rest := by
  induction cs with
  | nil => rfl
  | cons c cs ih => rw [List.flatMap_cons, List.append_assoc, bareQuotes_escape, ih]

namespace Term

/-- The number of the form of a term. -/
def form : Term → Nat
  | .str _ => 0
  | .int _ => 1
  | .capture _ => 2
  | .list _ => 3

/-- The number of the form that begins with a character, if there is one. -/
def formOf? (c : Char) : Option Nat :=
  if c = '"' then some 0
  else if c = '-' ∨ c.isDigit = true then some 1
  else if c = 'x' then some 2
  else if c = '[' then some 3
  else none

/-- The first character of a term tells its form. -/
lemma exists_text_eq_cons (t : Term) :
    ∃ c cs, t.text.toList = c :: cs ∧ formOf? c = some t.form := by
  cases t with
  | str s => exact ⟨'"', _, by rw [text, toList_quote], rfl⟩
  | int n =>
    obtain ⟨c, cs, hcs, hc⟩ := exists_intRepr_eq_cons n
    have hquote : c ≠ '"' := by
      rintro rfl
      simp at hc
    exact ⟨c, cs, hcs, by simp [formOf?, form, hquote, hc]⟩
  | capture var => exact ⟨'x', _, by rw [text, String.toList_append]; rfl, rfl⟩
  | list ts =>
    exact ⟨'[', _, by rw [text, String.toList_append, String.toList_append]; rfl, rfl⟩

lemma form_eq {t u : Term} {xs ys : List Char}
    (h : t.text.toList ++ xs = u.text.toList ++ ys) : t.form = u.form := by
  obtain ⟨c, cs, hcs, hc⟩ := exists_text_eq_cons t
  obtain ⟨d, ds, hds, hd⟩ := exists_text_eq_cons u
  rw [hcs, hds] at h
  rw [(List.cons.inj h).1, hd] at hc
  exact (Option.some.inj hc).symm

/-- No term begins with a closing bracket. -/
lemma text_ne_bracket (t : Term) (xs ys : List Char) : t.text.toList ++ xs ≠ ']' :: ys := by
  obtain ⟨c, cs, hcs, hc⟩ := exists_text_eq_cons t
  rw [hcs]
  intro h
  obtain rfl : c = ']' := (List.cons.inj h).1
  simp [formOf?] at hc

lemma list_append_inj {ts us : List Term} (hts : ∀ t ∈ ts, Delimits text t) {xs ys : List Char}
    (h : (list ts).text.toList ++ xs = (list us).text.toList ++ ys) : ts = us ∧ xs = ys := by
  have hlist (vs : List Term) (zs : List Char) : (list vs).text.toList ++ zs =
      '[' :: ((", ".intercalate (vs.map text)).toList ++ ']' :: zs) := by
    simp [text, texts_eq_map]
  rw [hlist, hlist] at h
  replace h := (List.cons.inj h).2
  have hends (zs : List Char) : EndsNumber (']' :: zs) := endsNumber_cons (by decide) zs
  have hcomma (zs : List Char) : EndsNumber (", ".toList ++ zs) := endsNumber_cons (by decide) _
  have hsep (zs : List Char) : ¬ ", ".toList <+: ']' :: zs := by simp
  cases ts with
  | nil =>
    cases us with
    | nil => exact ⟨rfl, (List.cons.inj h).2⟩
    | cons u us =>
      rw [List.map_cons, toList_intercalate_cons, List.append_assoc] at h
      exact (text_ne_bracket u _ _ h.symm).elim
  | cons t ts =>
    cases us with
    | nil =>
      rw [List.map_cons, toList_intercalate_cons, List.append_assoc] at h
      exact (text_ne_bracket t _ _ h).elim
    | cons u us =>
      obtain ⟨heq, hrest⟩ := intercalate_append_inj (List.cons_ne_nil t ts) (List.cons_ne_nil u us)
        (fun t ht u _ => hts t ht u) hcomma (hends xs) (hends ys) (hsep xs) (hsep ys) h
      exact ⟨heq, (List.cons.inj hrest).2⟩

mutual
/-- The text of a term shows where it ends. The induction is on the term on the left; the one on
the right has the same form, since its text begins alike. -/
theorem delimits_text : (t : Term) → Delimits text t
  | .str s => by
    intro u xs ys hx hy h
    have hform := form_eq h
    cases u with
    | str s' =>
      obtain ⟨rfl, hrest⟩ := quote_append_inj h
      exact ⟨rfl, hrest⟩
    | _ => simp [form] at hform
  | .int n => by
    intro u xs ys hx hy h
    have hform := form_eq h
    cases u with
    | int m =>
      obtain ⟨rfl, hrest⟩ := intRepr_append_inj hx hy h
      exact ⟨rfl, hrest⟩
    | _ => simp [form] at hform
  | .capture var => by
    intro u xs ys hx hy h
    have hform := form_eq h
    cases u with
    | capture var' =>
      simp only [text, String.toList_append, List.append_assoc] at h
      obtain ⟨rfl, hrest⟩ := repr_append_inj hx hy (List.append_cancel_left h)
      exact ⟨rfl, hrest⟩
    | _ => simp [form] at hform
  | .list ts => by
    intro u xs ys hx hy h
    have hform := form_eq h
    cases u with
    | list us =>
      obtain ⟨rfl, hrest⟩ := list_append_inj (delimits_of_mem ts) h
      exact ⟨rfl, hrest⟩
    | _ => simp [form] at hform

theorem delimits_of_mem : (ts : List Term) → ∀ t ∈ ts, Delimits text t
  | [] => by simp
  | t :: ts => List.forall_mem_cons.mpr ⟨delimits_text t, delimits_of_mem ts⟩
end

lemma text_inj {t u : Term} : t.text = u.text ↔ t = u := by
  refine ⟨fun h => ?_, fun h => h ▸ rfl⟩
  have hlist : t.text.toList ++ [] = u.text.toList ++ [] := by rw [h]
  exact (delimits_text t u [] [] endsNumber_nil endsNumber_nil hlist).1

end Term

/-- A quoted text shows where it ends. It holds no control character, and the quotes at its ends
are its only ones without a backslash in front. So terms are told apart by their texts, however
they are nested and whatever their strings hold. -/
theorem quote_self_delimiting :
    (∀ a b x y : String, quote a ++ x = quote b ++ y ↔ a = b ∧ x = y) ∧
    (∀ a : String, (quote a).toList.any isControl = false ∧
      ∃ body, (quote a).toList = '"' :: (body ++ ['"']) ∧ bareQuotes body = 0 ∧
        bareQuotes (quote a).toList = 2) ∧
    ∀ t u : Term, t.text = u.text ↔ t = u := by
  refine ⟨?_, ?_, fun t u => Term.text_inj⟩
  · intro a b x y
    refine ⟨fun h => ?_, fun ⟨ha, hx⟩ => by rw [ha, hx]⟩
    have hlist := congrArg String.toList h
    rw [String.toList_append, String.toList_append] at hlist
    obtain ⟨hab, hxy⟩ := quote_append_inj hlist
    exact ⟨hab, String.toList_inj.mp hxy⟩
  · intro a
    refine ⟨any_isControl_quote a, a.toList.flatMap escape, toList_quote a, ?_, ?_⟩
    · simpa [bareQuotes] using bareQuotes_flatMap_escape a.toList []
    · rw [toList_quote, bareQuotes, bareQuotes_flatMap_escape]
      rfl

example : (Term.list [.str "a\", \"b"]).text ≠ (Term.list [.str "a", .str "b"]).text := by
  decide +kernel

end ParserChain
