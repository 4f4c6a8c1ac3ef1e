import ParserChain.Program.Listing
import ParserChain.Proofs.QuotedText

/-! Patterns read back from a listing. The parts of a shape are told apart by characters that no
other part has; only the fields that a UTF-8 unit has no use for are not written. A comma ends a
pattern, and there is none in a shape. -/
namespace ParserChain
namespace Shape

/-- The shape without what is not looked at: a UTF-8 unit has no width, sign or byte order. -/
def shown (s : Shape) : Shape := if s.utf8 then { utf8 := true } else s

lemma text_shown (s : Shape) : s.shown.text = s.text := by
  cases h : s.utf8 <;> simp [shown, text, h]

/-- The characters of one kind in a text are those of its parts. -/
lemma filter_text {s : Shape} (h : s.utf8 = false) {p : Char → Bool} (hcolon : p ':' = false)
    (hdash : p '-' = false) : s.text.toList.filter p =
      (if s.bits = 8 then [] else s.bits.repr.toList.filter p) ++
        ((if s.signed then "signed".toList.filter p else []) ++
          if s.little then "little".toList.filter p else []) := by
  have hmark : "::".toList.filter p = [] := by simp [hcolon]
  have hsep : "-".toList.filter p = [] := by simp [hdash]
  have hparts : s.text.toList.filter p = s.parts.flatMap fun part => part.toList.filter p := by
    rw [text, if_neg (by simp [h])]
    cases s.parts with
    | nil => rfl
    | cons part parts =>
      rw [if_neg (by simp), String.toList_append, List.filter_append, hmark, List.nil_append,
        toList_intercalate_cons, List.filter_append, List.filter_flatMap]
      simp only [List.filter_append, hsep, List.nil_append, List.flatMap_cons]
  rw [hparts, parts]
  by_cases hbits : s.bits = 8 <;> cases s.signed <;> cases s.little <;>
    simp only [hbits, reduceIte, Bool.false_eq_true, List.flatMap_append, List.flatMap_cons,
      List.flatMap_nil, List.append_nil, List.append_assoc, List.nil_append]

/-- The digits in a text are those of the width, unless it is the usual one. -/
lemma filter_isDigit_text {s : Shape} (h : s.utf8 = false) :
    s.text.toList.filter Char.isDigit = if s.bits = 8 then [] else s.bits.repr.toList := by
  have hrepr : s.bits.repr.toList.filter Char.isDigit = s.bits.repr.toList :=
    List.filter_eq_self.mpr fun _ => isDigit_of_mem_repr
  have hsigned : "signed".toList.filter Char.isDigit = [] := by decide
  have hlittle : "little".toList.filter Char.isDigit = [] := by decide
  rw [filter_text h rfl rfl, hrepr, hsigned, hlittle]
  simp

/-- A character that is no digit comes from the sign or from the byte order. -/
lemma mem_text {s : Shape} (h : s.utf8 = false) {c : Char} (hc : c.isDigit = false)
    (hcolon : c ≠ ':') (hdash : c ≠ '-') : c ∈ s.text.toList ↔
      s.signed = true ∧ c ∈ "signed".toList ∨ s.little = true ∧ c ∈ "little".toList := by
  have hrepr : s.bits.repr.toList.filter (· == c) = [] := by
    rw [List.filter_eq_nil_iff]
    intro d hd heq
    obtain rfl : d = c := by simpa using heq
    simp [isDigit_of_mem_repr hd] at hc
  have hmem (cs : List Char) : c ∈ cs ↔ cs.filter (· == c) ≠ [] := by
    rw [Ne, List.filter_eq_nil_iff]
    simp
  have hfilter := filter_text h (p := (· == c)) (by simpa using hcolon.symm)
    (by simpa using hdash.symm)
  rw [hrepr] at hfilter
  rw [hmem, hmem "signed".toList, hmem "little".toList, hfilter]
  generalize "signed".toList.filter (· == c) = us
  generalize "little".toList.filter (· == c) = vs
  cases us <;> cases vs <;> cases s.signed <;> cases s.little <;> simp

/-- No other part has the first letter of the sign, or that of the byte order. -/
lemma signed_iff {s : Shape} (h : s.utf8 = false) : s.signed = true ↔ 's' ∈ s.text.toList := by
  have hin : 's' ∈ "signed".toList := by decide
  have hout : 's' ∉ "little".toList := by decide
  simp only [mem_text h (c := 's') rfl (by decide) (by decide), hin, hout, and_true, and_false,
    or_false]

lemma little_iff {s : Shape} (h : s.utf8 = false) : s.little = true ↔ 'l' ∈ s.text.toList := by
  have hout : 'l' ∉ "signed".toList := by decide
  have hin : 'l' ∈ "little".toList := by decide
  simp only [mem_text h (c := 'l') rfl (by decide) (by decide), hin, hout, and_true, and_false,
    false_or]

lemma utf8_iff (s : Shape) : s.utf8 = true ↔ 'u' ∈ s.text.toList := by
  cases h : s.utf8 with
  | true =>
    have hin : 'u' ∈ "::utf8".toList := by decide
    simp only [text, h, reduceIte, hin]
  | false =>
    have hsigned : 'u' ∉ "signed".toList := by decide
    have hlittle : 'u' ∉ "little".toList := by decide
    simp only [mem_text h (c := 'u') rfl (by decide) (by decide), hsigned, hlittle, and_false,
      or_false, Bool.false_eq_true]

/-- The texts of shapes are the same just when the shapes are, as far as they are shown. -/
lemma text_inj {s t : Shape} : s.text = t.text ↔ s.shown = t.shown := by
  refine ⟨fun h => ?_, fun h => by rw [← text_shown, h, text_shown]⟩
  have hutf8 : s.utf8 = t.utf8 := by
    rw [Bool.eq_iff_iff, utf8_iff, utf8_iff, h]
  cases ht : t.utf8 with
  | true => simp [shown, hutf8, ht]
  | false =>
    have hs : s.utf8 = false := hutf8.trans ht
    have hsigned : s.signed = t.signed := by
      rw [Bool.eq_iff_iff, signed_iff hs, signed_iff ht, h]
    have hlittle : s.little = t.little := by
      rw [Bool.eq_iff_iff, little_iff hs, little_iff ht, h]
    have hbits : s.bits = t.bits := by
      have hdigits := filter_isDigit_text hs
      rw [h, filter_isDigit_text ht] at hdigits
      obtain ⟨c, cs, hcs, -⟩ := exists_repr_eq_cons s.bits
      obtain ⟨d, ds, hds, -⟩ := exists_repr_eq_cons t.bits
      by_cases hs8 : s.bits = 8 <;> by_cases ht8 : t.bits = 8
      · rw [hs8, ht8]
      · simp [hs8, ht8, hds] at hdigits
      · simp [hs8, ht8, hcs] at hdigits
      · rw [if_neg hs8, if_neg ht8] at hdigits
        exact repr_toList_inj hdigits.symm
    cases s
    cases t
    simp_all [shown]

/-- A comma stands in no shape. -/
lemma ne_comma_of_mem_text {s : Shape} {c : Char} (hc : c ∈ s.text.toList) : (c != ',') = true := by
  rw [bne_iff_ne]
  rintro rfl
  cases h : s.utf8 with
  | true =>
    rw [text, if_pos h] at hc
    exact absurd hc (by decide)
  | false =>
    rw [mem_text h rfl (by decide) (by decide)] at hc
    rcases hc with ⟨-, hc⟩ | ⟨-, hc⟩
    · exact absurd hc (by decide)
    · exact absurd hc (by decide)

/-- A shape does not go on with a digit, and neither does what follows the comma behind it. -/
lemma endsNumber_text (s : Shape) {rest : List Char} (h : EndsNumber rest) :
    EndsNumber (s.text.toList ++ rest) := by
  unfold text
  split
  · exact endsNumber_cons (by decide) _
  · split
    · exact h
    · rw [String.toList_append, List.append_assoc]
      exact endsNumber_cons (by decide) _

/-- In front of a comma a shape is told by its text, as far as it is shown. -/
lemma text_append_inj {s t : Shape} {xs ys : List Char}
    (h : s.text.toList ++ ',' :: xs = t.text.toList ++ ',' :: ys) :
    s.shown = t.shown ∧ xs = ys := by
  obtain ⟨htext, hrest⟩ := run_append_inj (p := (· != ',')) (fun _ => ne_comma_of_mem_text)
    (fun _ => ne_comma_of_mem_text) (by simp) (by simp) h
  exact ⟨text_inj.mp (String.toList_inj.mp htext), (List.cons.inj hrest).2⟩

end Shape

namespace Pattern

/-- The pattern as far as it is shown. -/
def shown : Pattern → Pattern
  | .literal text => .literal text
  | .capture var shape => .capture var shape.shown

lemma listing_shown (palette : Palette) (a : Pattern) :
    a.shown.listing palette = a.listing palette := by
  cases a <;> simp [shown, listing, Shape.text_shown]

/-- In front of a comma a pattern is told by its listing, as far as it is shown. -/
lemma listing_append_inj {a b : Pattern} {xs ys : List Char}
    (h : (a.listing .plain).toList ++ ',' :: xs = (b.listing .plain).toList ++ ',' :: ys) :
    a.shown = b.shown ∧ xs = ys := by
  have hmixed (text : String) (var : Nat) (shape : Shape) (us vs : List Char) :
      ((literal text).listing .plain).toList ++ us ≠
        ((capture var shape).listing .plain).toList ++ vs := by
    simp [listing, toList_quote]
  cases a with
  | literal text =>
    cases b with
    | literal text' =>
      rw [listing, listing, Palette.wrapLiteral_plain, Palette.wrapLiteral_plain] at h
      obtain ⟨rfl, hrest⟩ := quote_append_inj h
      exact ⟨rfl, (List.cons.inj hrest).2⟩
    | capture var shape => exact (hmixed _ _ _ _ _ h).elim
  | capture var shape =>
    cases b with
    | literal text => exact (hmixed _ _ _ _ _ h.symm).elim
    | capture var' shape' =>
      have hcomma (us : List Char) : EndsNumber (',' :: us) := endsNumber_cons (by decide) us
      simp only [listing, String.toList_append, List.append_assoc] at h
      obtain ⟨rfl, hshape⟩ := repr_append_inj (shape.endsNumber_text (hcomma xs))
        (shape'.endsNumber_text (hcomma ys)) (List.append_cancel_left h)
      obtain ⟨heq, hrest⟩ := Shape.text_append_inj hshape
      exact ⟨by rw [shown, shown, heq], hrest⟩

end Pattern

/-- The patterns as far as they are shown. -/
lemma listInput_shown (palette : Palette) (input : List Pattern) :
    listInput palette (input.map Pattern.shown) = listInput palette input := by
  simp [listInput, Function.comp_def, Pattern.listing_shown]

/-- A comma stands behind every pattern, and the rest of the input closes the list. -/
lemma toList_listInput {input : List Pattern} (h : input ≠ []) : (listInput .plain input).toList =
    "<<".toList ++ ((input.flatMap fun a => (a.listing .plain).toList ++ ", ".toList) ++
      "rest::binary>>".toList) := by
  have hitems (last : String) : (", ".intercalate (input.map (Pattern.listing .plain) ++
      [last])).toList =
        (input.flatMap fun a => (a.listing .plain).toList ++ ", ".toList) ++ last.toList := by
    clear h
    induction input with
    | nil => simp
    | cons a input ih =>
      rw [List.map_cons, List.cons_append, String.intercalate_cons_of_ne_nil (by simp),
        String.toList_append, String.toList_append, ih]
      simp
  rw [listInput, if_neg (by simpa using h), String.toList_append, String.toList_append, hitems]
  simp

/-- A pattern does not begin like the rest of the input. -/
lemma Pattern.listing_ne_rest (a : Pattern) (xs ys : List Char) :
    (a.listing .plain).toList ++ xs ≠ 'r' :: ys := by
  cases a <;> simp [listing, toList_quote]

/-- The patterns of a procedure are told by what is listed of its input. -/
lemma listInput_append_inj {as bs : List Pattern} {xs ys : List Char}
    (h : (listInput .plain as).toList ++ xs = (listInput .plain bs).toList ++ ys) :
    as.map Pattern.shown = bs.map Pattern.shown ∧ xs = ys := by
  have hempty {cs : List Pattern} (hne : cs ≠ []) (us vs : List Char) :
      (listInput .plain []).toList ++ us ≠ (listInput .plain cs).toList ++ vs := by
    rw [toList_listInput hne]
    simp [listInput]
  by_cases has : as = []
  · by_cases hbs : bs = []
    · subst has hbs
      exact ⟨rfl, List.append_cancel_left h⟩
    · exact (hempty hbs xs ys (has ▸ h)).elim
  · by_cases hbs : bs = []
    · exact (hempty has ys xs (hbs ▸ h.symm)).elim
    · rw [toList_listInput has, toList_listInput hbs] at h
      simp only [List.append_assoc] at h
      have hparts : as.map Pattern.shown = bs.map Pattern.shown ∧
          "rest::binary>>".toList ++ xs = "rest::binary>>".toList ++ ys := by
        refine flatMap_append_inj ?_ ?_ ?_ (List.append_cancel_left h)
        · intro a _ b _ us vs heq
          rw [List.append_assoc, List.append_assoc] at heq
          obtain ⟨hab, htail⟩ := Pattern.listing_append_inj heq
          exact ⟨hab, (List.cons.inj htail).2⟩
        · intro b us heq
          rw [List.append_assoc] at heq
          exact Pattern.listing_ne_rest b _ _ heq
        · intro a us heq
          rw [List.append_assoc] at heq
          exact Pattern.listing_ne_rest a _ _ heq
      exact ⟨hparts.1, List.append_cancel_left hparts.2⟩

end ParserChain
