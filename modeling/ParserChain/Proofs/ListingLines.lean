import ParserChain.Proofs.ListingText

/-! The lines of a listing. Whatever texts a program holds, its listing has one line for the entry
and two for each procedure, and no control character apart from the line breaks. With what is read
off a line this determines the program, as far as it is shown. -/
namespace ParserChain

/-- A text without a control character, and so without a line break. -/
def IsLine (s : String) : Prop := s.toList.any isControl = false

instance : DecidablePred IsLine := fun s =>
  inferInstanceAs (Decidable (s.toList.any isControl = false))

@[simp] lemma isLine_append {s t : String} : IsLine (s ++ t) ↔ IsLine s ∧ IsLine t := by
  simp only [IsLine, String.toList_append, List.any_append, Bool.or_eq_false_iff]

lemma isLine_intercalate {sep : String} (hsep : IsLine sep) {ts : List String}
    (h : ∀ t ∈ ts, IsLine t) : IsLine (sep.intercalate ts) := by
  induction ts with
  | nil => exact show IsLine "" from by decide
  | cons t ts ih =>
    obtain ⟨ht, hts⟩ := List.forall_mem_cons.mp h
    cases ts with
    | nil => simpa using ht
    | cons u us =>
      rw [String.intercalate_cons_cons, isLine_append, isLine_append]
      exact ⟨⟨ht, hsep⟩, ih hts⟩

lemma isControl_of_isIdentChar {c : Char} (h : isIdentChar c = true) : isControl c = false := by
  have hcodes : ∀ n < 160,
      isIdentChar (Char.ofNat n) = true → isControl (Char.ofNat n) = false := by
    decide +kernel
  by_cases hc : c.toNat < 160
  · rw [← Char.ofNat_toNat c] at h ⊢
    exact hcodes c.toNat hc h
  · simp only [isControl, Bool.or_eq_false_iff, Bool.and_eq_false_iff, decide_eq_false_iff_not]
    omega

lemma IsIdent.isLine {s : String} (h : IsIdent s) : IsLine s := by
  rw [IsLine, List.any_eq_false]
  intro c hc
  simp [isControl_of_isIdentChar (isIdent_iff.mp h c hc)]

lemma isLine_repr (n : Nat) : IsLine n.repr := (isIdent_repr n).isLine

lemma isLine_intRepr (n : Int) : IsLine n.repr := by
  cases n with
  | ofNat n => exact isLine_repr n
  | negSucc n =>
    have hminus : IsLine "-" := by decide
    exact isLine_append.mpr ⟨hminus, isLine_repr (n + 1)⟩

lemma isLine_quote (s : String) : IsLine (quote s) := any_isControl_quote s

namespace Term

mutual
lemma isLine_text : (t : Term) → IsLine t.text
  | .str s => isLine_quote s
  | .int n => isLine_intRepr n
  | .capture var => by
    rw [text, isLine_append]
    exact ⟨by decide, isLine_repr var⟩
  | .list ts => by
    rw [text, texts_eq_map, isLine_append, isLine_append]
    refine ⟨⟨by decide, isLine_intercalate (by decide) ?_⟩, by decide⟩
    intro s hs
    obtain ⟨t, ht, rfl⟩ := List.mem_map.mp hs
    exact isLine_text_of_mem ts t ht

lemma isLine_text_of_mem : (ts : List Term) → ∀ t ∈ ts, IsLine t.text
  | [] => by simp
  | t :: ts => List.forall_mem_cons.mpr ⟨isLine_text t, isLine_text_of_mem ts⟩
end

end Term
namespace Guard

lemma IsTest.isLine_text {g : Guard} (h : g.IsTest) : IsLine g.text := by
  cases h with
  | eq var value =>
    simp only [text, isLine_append]
    exact ⟨⟨⟨by decide, isLine_repr var⟩, by decide⟩, isLine_intRepr value⟩
  | between var min max =>
    simp only [text, isLine_append]
    exact ⟨⟨⟨⟨isLine_intRepr min, by decide⟩, isLine_repr var⟩, by decide⟩, isLine_intRepr max⟩

lemma IsClause.isLine_text {g : Guard} (h : g.IsClause) : IsLine g.text := by
  cases h with
  | test h => exact h.isLine_text
  | @any gs _ h =>
    rw [text, texts_eq_map, isLine_append, isLine_append]
    refine ⟨⟨by decide, isLine_intercalate (by decide) ?_⟩, by decide⟩
    intro s hs
    obtain ⟨g, hg, rfl⟩ := List.mem_map.mp hs
    exact (h g hg).isLine_text

lemma isLine_text_allOf {gs : List Guard} (h : ∀ g ∈ gs, g.IsClause) (hne : gs ≠ []) :
    IsLine (allOf gs).text := by
  rw [text_allOf hne]
  apply isLine_intercalate (by decide)
  intro s hs
  obtain ⟨g, hg, rfl⟩ := List.mem_map.mp hs
  exact (h g hg).isLine_text

end Guard

lemma Shape.isLine_text (s : Shape) : IsLine s.text := by
  unfold text
  split
  · decide
  · split
    · decide
    · refine isLine_append.mpr ⟨by decide, isLine_intercalate (by decide) ?_⟩
      intro part hpart
      have hcases : part = s.bits.repr ∨ part = "signed" ∨ part = "little" := by
        simp only [parts, List.mem_append] at hpart
        grind
      rcases hcases with rfl | rfl | rfl
      · exact isLine_repr s.bits
      · decide
      · decide

lemma Pattern.isLine_listing (a : Pattern) : IsLine (a.listing .plain) := by
  cases a with
  | literal text => simpa [listing] using isLine_quote text
  | capture var shape =>
    rw [listing, isLine_append, isLine_append]
    exact ⟨⟨by decide, isLine_repr var⟩, shape.isLine_text⟩

lemma isLine_listInput (input : List Pattern) : IsLine (listInput .plain input) := by
  unfold listInput
  split
  · decide
  · rw [isLine_append, isLine_append]
    refine ⟨⟨by decide, isLine_intercalate (by decide) ?_⟩, by decide⟩
    intro s hs
    rcases List.mem_append.mp hs with hs | hs
    · obtain ⟨a, -, rfl⟩ := List.mem_map.mp hs
      exact a.isLine_listing
    · obtain rfl := List.mem_singleton.mp hs
      decide

lemma AccUpdate.isLine_listing {a : AccUpdate}
    (h : ∀ f, a.transform? = some f → IsIdent f.name) : IsLine a.listing := by
  cases a with
  | keep => decide
  | empty => decide
  | prepend terms =>
    rw [listing_prepend, isLine_append]
    exact ⟨Term.isLine_text _, by decide⟩
  | merge f => exact isLine_append.mpr ⟨(h f rfl).isLine, by decide⟩

lemma LineMove.isLine_listing (m : LineMove) : IsLine m.listing := by
  cases m with
  | incoming => decide
  | advance n => exact isLine_append.mpr ⟨by decide, isLine_repr n.toNat⟩

lemma ColumnMove.isLine_listing (m : ColumnMove) : IsLine m.listing := by
  cases m with
  | advance n =>
    by_cases hn : n = 0
    · subst hn
      decide
    · rw [listing, if_neg hn, isLine_append]
      exact ⟨by decide, isLine_repr n.toNat⟩
  | reset n => exact isLine_repr n.toNat

lemma Body.isLine_listing {b : Body} (h : b.PlainNames) : IsLine (b.listing .plain) := by
  have hparts : b.listing .plain = b.word ++ ("(" ++ b.arguments) :=
    String.toList_inj.mp (by simp [toList_listing])
  rw [hparts, isLine_append, isLine_append]
  refine ⟨h.isIdent_word.isLine, by decide, ?_⟩
  cases b with
  | invoke target acc stack move =>
    have hacc : IsLine acc.listing := AccUpdate.isLine_listing h.transform
    have hstack : IsLine stack.listing := by cases stack <;> decide
    simp only [arguments_invoke, isLine_append, hacc, hstack, move.line.isLine_listing,
      move.column.isLine_listing, and_true]
    decide
  | ok => decide
  | error reason => exact isLine_append.mpr ⟨isLine_quote reason, by decide⟩

namespace Procedure

/-- What stands behind the parameters of a procedure. -/
def listTests (d : Procedure) : String := listGuard .plain d.guard ++ listFallback .plain d.fallback

/-- The two lines of a procedure. -/
def lines (d : Procedure) : List String :=
  [d.listHead .plain, "  -> " ++ d.body.listing .plain]

lemma listing_eq_lines (d : Procedure) :
    d.listing .plain = String.join (d.lines.map (· ++ "\n")) := by
  rw [← String.toList_inj]
  simp [listing, lines]

lemma isLine_listHead {d : Procedure} (h : d.Readable) : IsLine (d.listHead .plain) := by
  have hname : IsLine d.name.text := (Name.isIdent_text h.name).isLine
  have hinput := isLine_listInput d.input
  have hstack : IsLine d.stack.listing := by cases d.stack <;> decide
  have hguard : IsLine (listGuard .plain d.guard) := by
    obtain ⟨gs, hgs, hg⟩ := h.guard
    rw [hg]
    by_cases hne : gs = []
    · rw [hne, listGuard_allOf_nil]
      decide
    · have hwhen : listGuard .plain (.allOf gs) = " when " ++ (Guard.allOf gs).text :=
        String.toList_inj.mp (by rw [toList_listGuard_allOf hgs hne, String.toList_append])
      rw [hwhen, isLine_append]
      exact ⟨by decide, Guard.isLine_text_allOf hgs hne⟩
  have hfallback : IsLine (listFallback .plain d.fallback) := by
    cases hf : d.fallback with
    | none => decide
    | some n =>
      have hn : IsLine n.text := (Name.isIdent_text (h.fallback n hf)).isLine
      simp only [listFallback, Palette.wrapDim_plain, Palette.wrapName_plain, isLine_append, hn,
        and_true]
      decide
  simp only [listHead, Palette.wrapName_plain, isLine_append, hname, hinput, hstack, hguard,
    hfallback, and_true, true_and]
  decide

lemma isLine_of_mem_lines {d : Procedure} (h : d.Readable) {line : String} (hl : line ∈ d.lines) :
    IsLine line := by
  simp only [lines, List.mem_cons, List.not_mem_nil, or_false] at hl
  rcases hl with rfl | rfl
  · exact isLine_listHead h
  · exact isLine_append.mpr ⟨by decide, Body.isLine_listing h.body⟩

end Procedure
namespace Program

def entryLine (p : Program) : String :=
  "entry " ++ p.name ++ "(" ++ p.entry.start.line.toNat.repr ++ ", " ++
    p.entry.start.column.toNat.repr ++ ") -> " ++ p.entry.target.text

/-- One line for the entry, and two for each procedure. -/
def lines (p : Program) : List String := p.entryLine :: p.procedures.flatMap Procedure.lines

lemma length_lines (p : Program) : p.lines.length = 1 + 2 * p.procedures.length := by
  have htwo (ds : List Procedure) : (ds.flatMap Procedure.lines).length = 2 * ds.length := by
    induction ds with
    | nil => rfl
    | cons d ds ih =>
      rw [List.flatMap_cons, List.length_append, ih, List.length_cons, Procedure.lines]
      simp only [List.length_cons, List.length_nil]
      omega
  rw [lines, List.length_cons, htwo]
  omega

lemma listing_eq_lines (p : Program) :
    p.listing .plain = String.join (p.lines.map (· ++ "\n")) := by
  have hentry : p.listEntry .plain = p.entryLine ++ "\n" := by
    rw [← String.toList_inj]
    delta listEntry entryLine
    simp
  have hprocs (ds : List Procedure) : String.join (ds.map (Procedure.listing .plain)) =
      String.join ((ds.flatMap Procedure.lines).map (· ++ "\n")) := by
    induction ds with
    | nil => rfl
    | cons d ds ih =>
      rw [List.map_cons, String.join_cons, ih, Procedure.listing_eq_lines, List.flatMap_cons,
        List.map_append, String.join_append]
  rw [listing, hentry, hprocs, lines, List.map_cons, String.join_cons]

lemma isLine_of_mem_lines {p : Program} (h : p.Readable) {line : String} (hl : line ∈ p.lines) :
    IsLine line := by
  rcases List.mem_cons.mp hl with rfl | hl
  · have htarget : IsLine p.entry.target.text := (Name.isIdent_text h.entry).isLine
    delta entryLine
    simp only [isLine_append, h.name.isLine, isLine_repr, htarget, and_true]
    decide
  · obtain ⟨d, hd, hl⟩ := List.mem_flatMap.mp hl
    exact Procedure.isLine_of_mem_lines (h.procedures d hd) hl

/-- A listing without colours determines the program that was compiled, except for what a UTF-8
capture has no use for, as long as its name and those of its transforms are identifiers. It has one
line for the entry and two for each procedure, whatever the literals, labels and terms hold. And it
is read in one way only: a procedure, a guard with its fallback, a pattern in front of a comma, and
a term in front of no digit show where they end. -/
theorem listing_determines_program {config config' : Config} {name name' : String}
    {steps steps' : List Combinator} {p q : Program} (hp : config.compile name steps = .ok p)
    (hq : config'.compile name' steps' = .ok q) (hpnames : p.PlainNames) (hqnames : q.PlainNames) :
    (p.listing .plain = q.listing .plain ↔ (p.shown == q.shown) = true) ∧
    (p.listing .plain = String.join (p.lines.map (· ++ "\n")) ∧
      p.lines.length = 1 + 2 * p.procedures.length ∧
      ∀ line ∈ p.lines, line.toList.any isControl = false) ∧
    (∀ d ∈ p.procedures, ∀ e ∈ q.procedures, ∀ x y : String,
      d.listing .plain ++ x = e.listing .plain ++ y → (d.shown == e.shown) = true ∧ x = y) ∧
    (∀ d ∈ p.procedures, ∀ e ∈ q.procedures, ∀ x y : String,
      d.listTests ++ "\n" ++ x = e.listTests ++ "\n" ++ y →
        d.guard = e.guard ∧ d.fallback = e.fallback ∧ x = y) ∧
    (∀ (a b : Pattern) (x y : String),
      a.listing .plain ++ ", " ++ x = b.listing .plain ++ ", " ++ y → a.shown = b.shown ∧ x = y) ∧
    ∀ (t u : Term) (x y : String), EndsNumber x.toList → EndsNumber y.toList →
      t.text ++ x = u.text ++ y → t = u ∧ x = y := by
  have hpread := readable_of_compile hp hpnames
  have hqread := readable_of_compile hq hqnames
  refine ⟨⟨shown_eq_of_listing hpread hqread, fun h => listing_eq_of_shown h .plain⟩,
    ⟨p.listing_eq_lines, p.length_lines, fun line hl => isLine_of_mem_lines hpread hl⟩,
    ?_, ?_, ?_, ?_⟩
  · intro d hd e he x y h
    have hlist := congrArg String.toList h
    rw [String.toList_append, String.toList_append] at hlist
    obtain ⟨hde, hrest⟩ := Procedure.listing_append_inj (hpread.procedures d hd)
      (hqread.procedures e he) hlist
    exact ⟨hde, String.toList_inj.mp hrest⟩
  · intro d hd e he x y h
    have hbreak : "\n".toList = ['\n'] := by decide
    have hlist := congrArg String.toList h
    simp only [Procedure.listTests, String.toList_append, List.append_assoc, hbreak,
      List.singleton_append] at hlist
    obtain ⟨hguard, hfallback, hrest⟩ := Procedure.tests_append_inj (hpread.procedures d hd)
      (hqread.procedures e he) hlist
    exact ⟨hguard, hfallback, String.toList_inj.mp hrest⟩
  · intro a b x y h
    have hcomma : ", ".toList = [',', ' '] := by decide
    have hlist := congrArg String.toList h
    simp only [String.toList_append, List.append_assoc, hcomma, List.cons_append,
      List.nil_append] at hlist
    obtain ⟨hab, hrest⟩ := Pattern.listing_append_inj hlist
    exact ⟨hab, String.toList_inj.mp (List.cons.inj hrest).2⟩
  · intro t u x y hx hy h
    have hlist := congrArg String.toList h
    rw [String.toList_append, String.toList_append] at hlist
    obtain ⟨htu, hrest⟩ := Term.delimits_text t u _ _ hx hy hlist
    exact ⟨htu, String.toList_inj.mp hrest⟩

/-- Two captures of a UTF-8 character that differ in their byte order, which is not looked at. -/
theorem listing_determines_program_utf8 : ∃ p q : Program,
    Config.compile {} "p" [.utf8Range []] = .ok p ∧
    Config.compile {} "p" [.byteRange [] [.little, .utf8]] = .ok q ∧
    p.PlainNames ∧ q.PlainNames ∧ p.listing .plain = q.listing .plain ∧ (p == q) = false := by
  have hlinks (modifiers : List Modifier) : Expands [.byteRange [] modifiers]
      [.bound [.byteRange [] modifiers]] := .of_run (by simp) rfl
  have hp := (hlinks [.utf8]).compile_eq (by simp) {} "p"
  have hq := (hlinks [.little, .utf8]).compile_eq (by simp) {} "p"
  have hname : IsIdent "p" := by decide
  have hpnames : (ofLinks "p" ({} : Config).start [.bound [.byteRange [] [.utf8]]]).PlainNames :=
    plainNames_ofLinks hname (by simp)
  have hqnames : (ofLinks "p" ({} : Config).start
      [.bound [.byteRange [] [.little, .utf8]]]).PlainNames := plainNames_ofLinks hname (by simp)
  obtain ⟨hiff, -⟩ := listing_determines_program hp hq hpnames hqnames
  exact ⟨_, _, hp, hq, hpnames, hqnames, hiff.mpr (by rfl), by rfl⟩

end Program
end ParserChain
