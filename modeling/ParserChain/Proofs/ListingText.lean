import ParserChain.Proofs.BodyText
import ParserChain.Proofs.Clause
import ParserChain.Proofs.Flatten

/-! What a listing tells. The head of a procedure is read from left to right: its name up to a
bracket, the patterns, what is taken from the stack, the guard and the fallback, each of which
begins in a way of its own. Only a chain that was compiled can be told by its listing, since a
frame is taken from the stack without a mark in the body, and a guard is written without brackets
of its own. -/
namespace ParserChain
namespace Procedure

/-- A procedure whose listing can be read: its names are identifiers, its guard is a conjunction of
clauses, and the frame it takes from the stack is the one that its head shows. -/
structure Readable (d : Procedure) : Prop where
  name : IsIdent d.name.base
  body : d.body.PlainNames
  fallback : ∀ n, d.fallback = some n → IsIdent n.base
  guard : ∃ gs, (∀ g ∈ gs, g.IsClause) ∧ d.guard = .allOf gs
  pops : d.body.pops = (d.stack == .saved)

/-- The procedure with its patterns as far as they are shown. -/
def shown (d : Procedure) : Procedure := { d with input := d.input.map Pattern.shown }

/-- No guard goes on with this text, and no guard begins with it. -/
structure EndsGuard (rest : List Char) : Prop where
  number : EndsNumber rest
  noAnd : ¬ " and ".toList <+: rest
  noWhen : ¬ " when ".toList <+: rest

lemma endsGuard_listFallback (fallback : Option Name) (rest : List Char) :
    EndsGuard ((listFallback .plain fallback).toList ++ '\n' :: rest) := by
  cases fallback with
  | none => exact ⟨endsNumber_cons (by decide) _, by simp [listFallback], by simp [listFallback]⟩
  | some n =>
    have helse : (listFallback .plain (some n)).toList ++ '\n' :: rest =
        ' ' :: 'e' :: ("lse ".toList ++ (n.text.toList ++ '\n' :: rest)) := by
      simp [listFallback]
    rw [helse]
    exact ⟨endsNumber_cons (by decide) _, by simp, by simp⟩

lemma listGuard_allOf_nil : listGuard .plain (.allOf []) = "" := by
  simp [listGuard, Guard.allOf, Guard.isAlways]

lemma toList_listGuard_allOf {gs : List Guard} (hgs : ∀ g ∈ gs, g.IsClause) (hne : gs ≠ []) :
    (listGuard .plain (.allOf gs)).toList = " when ".toList ++ (Guard.allOf gs).text.toList := by
  have halways : (Guard.allOf gs).isAlways = false := by
    simpa [Guard.isAlways_allOf hgs] using hne
  simp [listGuard, halways]

/-- A guard is told by its listing. -/
lemma listGuard_append_inj {gs ks : List Guard} (hgs : ∀ g ∈ gs, g.IsClause)
    (hks : ∀ k ∈ ks, k.IsClause) {xs ys : List Char} (hx : EndsGuard xs) (hy : EndsGuard ys)
    (h : (listGuard .plain (.allOf gs)).toList ++ xs =
      (listGuard .plain (.allOf ks)).toList ++ ys) : gs = ks ∧ xs = ys := by
  by_cases hne : gs = []
  · by_cases hne' : ks = []
    · subst hne hne'
      exact ⟨rfl, List.append_cancel_left h⟩
    · rw [hne, listGuard_allOf_nil, toList_listGuard_allOf hks hne', List.append_assoc] at h
      exact (hx.noWhen ⟨_, h.symm⟩).elim
  · by_cases hne' : ks = []
    · rw [hne', listGuard_allOf_nil, toList_listGuard_allOf hgs hne, List.append_assoc] at h
      exact (hy.noWhen ⟨_, h⟩).elim
    · rw [toList_listGuard_allOf hgs hne, toList_listGuard_allOf hks hne', List.append_assoc,
        List.append_assoc] at h
      exact Guard.text_allOf_append_inj hgs hks hne hne' hx.number hy.number hx.noAnd hy.noAnd
        (List.append_cancel_left h)

lemma listFallback_append_inj {m n : Option Name} (hm : ∀ k, m = some k → IsIdent k.base)
    (hn : ∀ k, n = some k → IsIdent k.base) {xs ys : List Char}
    (h : (listFallback .plain m).toList ++ '\n' :: xs =
      (listFallback .plain n).toList ++ '\n' :: ys) : m = n ∧ xs = ys := by
  cases m with
  | none =>
    cases n with
    | none => exact ⟨rfl, by simpa using h⟩
    | some n => simp [listFallback] at h
  | some m =>
    cases n with
    | none => simp [listFallback] at h
    | some n =>
      have helse (k : Name) : (listFallback .plain (some k)).toList =
          " else ".toList ++ k.text.toList := by
        simp [listFallback]
      rw [helse, helse, List.append_assoc, List.append_assoc] at h
      obtain ⟨rfl, hrest⟩ := Name.text_append_inj (hm m rfl) (hn n rfl) (by decide) (by decide)
        (List.append_cancel_left h)
      exact ⟨rfl, hrest⟩

end Procedure

lemma StackPattern.listing_append_inj {s t : StackPattern} {xs ys : List Char}
    (h : s.listing.toList ++ xs = t.listing.toList ++ ys) : s = t ∧ xs = ys := by
  cases s <;> cases t <;> simp_all [listing]

namespace Procedure

lemma toList_listing (d : Procedure) : (d.listing .plain).toList =
    d.name.text.toList ++ '(' :: ((listInput .plain d.input).toList ++ (", acc, ".toList ++
      (d.stack.listing.toList ++ (", line, column)".toList ++ ((listGuard .plain d.guard).toList ++
        ((listFallback .plain d.fallback).toList ++ '\n' :: ("  -> ".toList ++
          ((d.body.listing .plain).toList ++ ['\n'])))))))) := by
  simp [listing, listHead]

/-- The guard and the fallback of a procedure are told by the end of its first line. -/
lemma tests_append_inj {d e : Procedure} (hd : d.Readable) (he : e.Readable) {xs ys : List Char}
    (h : (listGuard .plain d.guard).toList ++ ((listFallback .plain d.fallback).toList ++
        '\n' :: xs) =
      (listGuard .plain e.guard).toList ++ ((listFallback .plain e.fallback).toList ++
        '\n' :: ys)) : d.guard = e.guard ∧ d.fallback = e.fallback ∧ xs = ys := by
  obtain ⟨gs, hgs, hguard⟩ := hd.guard
  obtain ⟨ks, hks, hguard'⟩ := he.guard
  rw [hguard, hguard'] at h
  obtain ⟨rfl, hrest⟩ := listGuard_append_inj hgs hks (endsGuard_listFallback _ _)
    (endsGuard_listFallback _ _) h
  obtain ⟨hfallback, hline⟩ := listFallback_append_inj hd.fallback he.fallback hrest
  exact ⟨by rw [hguard, hguard'], hfallback, hline⟩

/-- A procedure shows where it ends, and what it is as far as it is shown. -/
lemma listing_append_inj {d e : Procedure} (hd : d.Readable) (he : e.Readable) {xs ys : List Char}
    (h : (d.listing .plain).toList ++ xs = (e.listing .plain).toList ++ ys) :
    (d.shown == e.shown) = true ∧ xs = ys := by
  simp only [toList_listing, List.append_assoc, List.cons_append] at h
  obtain ⟨hname, h₁⟩ := Name.text_append_inj hd.name he.name (by decide) (by decide) h
  obtain ⟨hinput, h₂⟩ := listInput_append_inj h₁
  obtain ⟨hstack, h₃⟩ := StackPattern.listing_append_inj (List.append_cancel_left h₂)
  obtain ⟨hguard, hfallback, h₄⟩ := tests_append_inj hd he (List.append_cancel_left h₃)
  have hpops : d.body.pops = e.body.pops := by rw [hd.pops, he.pops, hstack]
  obtain ⟨hbody, h₅⟩ := Body.listing_append_inj hd.body he.body hpops (List.append_cancel_left h₄)
  refine ⟨?_, (List.cons.inj h₅).2⟩
  simp [beq_def, shown, hname, hinput, hstack, hguard, hbody, hfallback]

end Procedure

/-! Nothing else is listed: transforms are listed by their names, and shapes as they are shown. -/

lemma AccUpdate.listing_eq {a b : AccUpdate} (h : (a == b) = true) : a.listing = b.listing := by
  rw [← document_eq_iff] at h
  cases a <;> cases b <;> simp_all [document, listing, Term.documents_inj]

lemma Body.listing_eq {a b : Body} (h : (a == b) = true) (palette : Palette) :
    a.listing palette = b.listing palette := by
  cases a with
  | invoke target acc stack move =>
    cases b with
    | invoke target' acc' stack' move' =>
      simp only [invoke_beq, Bool.and_eq_true, beq_iff_eq] at h
      obtain ⟨rfl, hacc, rfl, rfl⟩ := h
      rw [listing, listing, AccUpdate.listing_eq hacc]
    | _ => exact absurd (document_eq_iff.mpr h) (by simp [document])
  | ok =>
    cases b with
    | ok => rfl
    | _ => exact absurd (document_eq_iff.mpr h) (by simp [document])
  | error reason =>
    cases b with
    | error reason' =>
      obtain rfl : reason = reason' := by simpa using h
      rfl
    | _ => exact absurd (document_eq_iff.mpr h) (by simp [document])

namespace Procedure

lemma listing_shown (palette : Palette) (d : Procedure) :
    d.shown.listing palette = d.listing palette := by
  simp [shown, listing, listHead, listInput_shown]

lemma listing_eq {d e : Procedure} (h : (d == e) = true) (palette : Palette) :
    d.listing palette = e.listing palette := by
  simp only [beq_def, Bool.and_eq_true, beq_iff_eq] at h
  obtain ⟨hname, hinput, hstack, hguard, hbody, hfallback⟩ := h
  simp [listing, listHead, hname, hinput, hstack, hguard, Body.listing_eq hbody, hfallback]

lemma map_listing_eq {ds es : List Procedure} (h : (ds == es) = true) (palette : Palette) :
    ds.map (listing palette) = es.map (listing palette) := by
  induction ds generalizing es with
  | nil =>
    cases es with
    | nil => rfl
    | cons e es => simp at h
  | cons d ds ih =>
    cases es with
    | nil => simp at h
    | cons e es =>
      rw [List.cons_beq_cons, Bool.and_eq_true] at h
      rw [List.map_cons, List.map_cons, listing_eq h.1, ih h.2]

end Procedure
namespace Link
variable {base : String} {step : Nat}

lemma readable_procedure (hbase : IsIdent base) {l : Link}
    (hl : ∀ run, l = .bound run → Combinator.anyTraverse run = false)
    (hf : ∀ f, (l.procedure base step).body.transform? = some f → IsIdent f.name) :
    (l.procedure base step).Readable where
  name := by rwa [name_procedure]
  body := by
    refine ⟨?_, hf⟩
    intro n hn
    obtain rfl : Name.link base (step + 1) = n := by simpa using hn
    exact hbase
  fallback := by
    intro n hn
    rw [fallback_procedure] at hn
    split at hn
    · simp at hn
    · obtain rfl := Option.some.inj hn
      exact hbase
  guard := by
    cases l with
    | bound run => exact ⟨_, fun _ => Segment.isClause_of_mem_fuse 0 (hl run rfl), rfl⟩
    | enter => exact ⟨[], by simp, rfl⟩
    | exit f => exact ⟨[], by simp, rfl⟩
  pops := by cases l <;> rfl

/-- The procedures of a link are readable, if the names are. -/
lemma readable_of_mem_block (hbase : IsIdent base) {l : Link}
    (hl : ∀ run, l = .bound run → Combinator.anyTraverse run = false) {d : Procedure}
    (hd : d ∈ l.block base step) (hf : ∀ f, d.body.transform? = some f → IsIdent f.name) :
    d.Readable := by
  rw [block_eq, Procedure.withCatchAll] at hd
  rcases List.mem_cons.mp hd with rfl | hd
  · exact readable_procedure hbase hl hf
  · split at hd
    · simp at hd
    · obtain rfl := List.mem_singleton.mp hd
      refine ⟨?_, ⟨by simp, hf⟩, by simp, ⟨[], by simp, rfl⟩, rfl⟩
      rw [name_procedure]
      exact hbase

lemma readable_of_mem_layout (hbase : IsIdent base) {ls : List Link}
    (hls : ∀ run, .bound run ∈ ls → Combinator.anyTraverse run = false) {d : Procedure}
    (hd : d ∈ layout base step ls) (hf : ∀ f, d.body.transform? = some f → IsIdent f.name) :
    d.Readable := by
  induction ls generalizing step with
  | nil => simp [layout] at hd
  | cons l ls ih =>
    rcases List.mem_append.mp hd with hd | hd
    · refine readable_of_mem_block hbase ?_ hd hf
      rintro run rfl
      exact hls run List.mem_cons_self
    · exact ih (fun run hrun => hls run (List.mem_cons_of_mem l hrun)) hd

/-- A transform in a chain is that of a link that merges. -/
lemma exit_mem_of_transform {ls : List Link} {d : Procedure} {f : Transform Value}
    (hd : d ∈ layout base step ls) (hf : d.body.transform? = some f) : .exit f ∈ ls := by
  induction ls generalizing step with
  | nil => simp [layout] at hd
  | cons l ls ih =>
    rw [layout, block_eq, Procedure.withCatchAll] at hd
    rcases List.mem_append.mp hd with hd | hd
    · rcases List.mem_cons.mp hd with rfl | hd
      · cases l with
        | bound run =>
          have hkeep : (AccUpdate.ofTerms (Segment.fuse 0 run).outputs).transform? = some f := hf
          unfold AccUpdate.ofTerms at hkeep
          split at hkeep <;> simp [AccUpdate.transform?] at hkeep
        | enter => simp [procedure, enterLink, Body.transform?, AccUpdate.transform?] at hf
        | exit g =>
          obtain rfl : g = f := by
            simpa [procedure, exitLink, Body.transform?, AccUpdate.transform?] using hf
          exact List.mem_cons_self
      · split at hd
        · simp at hd
        · obtain rfl := List.mem_singleton.mp hd
          simp [Body.transform?] at hf
    · exact List.mem_cons_of_mem l (ih hd)

end Link
namespace Program

/-- The name of the program and those of its transforms are identifiers. -/
structure PlainNames (p : Program) : Prop where
  name : IsIdent p.name
  transform : ∀ d ∈ p.procedures, ∀ f, d.body.transform? = some f → IsIdent f.name

lemma plainNames_ofLinks {name : String} {start : Position} {links : List Link}
    (hname : IsIdent name) (hlinks : ∀ f, .exit f ∈ links → IsIdent f.name) :
    (ofLinks name start links).PlainNames := by
  refine ⟨hname, ?_⟩
  intro d hd f hf
  rcases List.mem_append.mp hd with hd | hd
  · exact hlinks f (Link.exit_mem_of_transform hd hf)
  · obtain rfl := List.mem_singleton.mp hd
    simp [successLink, Body.transform?] at hf

/-- The program with its patterns as far as they are shown. -/
def shown (p : Program) : Program := { p with procedures := p.procedures.map Procedure.shown }

/-- A program whose listing can be read. -/
structure Readable (p : Program) : Prop where
  name : IsIdent p.name
  entry : IsIdent p.entry.target.base
  procedures : ∀ d ∈ p.procedures, d.Readable

/-- What compiles is readable, if its names are plain. -/
lemma readable_of_compile {config : Config} {name : String} {steps : List Combinator} {p : Program}
    (hp : config.compile name steps = .ok p) (hnames : p.PlainNames) : p.Readable := by
  obtain ⟨links, hlinks, rfl⟩ := expands_of_compile hp
  refine ⟨hnames.name, hnames.name, ?_⟩
  intro d hd
  have hf := hnames.transform d hd
  rcases List.mem_append.mp hd with hd | hd
  · exact Link.readable_of_mem_layout hnames.name (fun run => hlinks.anyTraverse_of_mem) hd hf
  · obtain rfl := List.mem_singleton.mp hd
    exact ⟨hnames.name, ⟨by simp [successLink], hf⟩, by simp [successLink], ⟨[], by simp, rfl⟩, rfl⟩

lemma toList_listing (p : Program) : (p.listing .plain).toList =
    "entry ".toList ++ (p.name.toList ++ '(' :: (p.entry.start.line.toNat.repr.toList ++
      (", ".toList ++ (p.entry.start.column.toNat.repr.toList ++ (") -> ".toList ++
        (p.entry.target.text.toList ++
          '\n' :: p.procedures.flatMap fun d => (d.listing .plain).toList)))))) := by
  rw [listing]
  -- Not `unfold`: the equation lemma of so long a sum of strings takes seconds to derive.
  delta listEntry
  simp [List.flatMap_map]

/-- Procedures are told by their listings one behind the other. -/
lemma procedures_eq_of_listing {ds es : List Procedure} (hds : ∀ d ∈ ds, d.Readable)
    (hes : ∀ e ∈ es, e.Readable)
    (h : (ds.flatMap fun d => (d.listing .plain).toList) =
      es.flatMap fun e => (e.listing .plain).toList) :
    (ds.map Procedure.shown == es.map Procedure.shown) = true := by
  have hne (d : Procedure) (us : List Char) : (d.listing .plain).toList ++ us ≠ [] := by
    simp [Procedure.toList_listing]
  have hdocs : ds.map (fun d => d.shown.document) = es.map (fun e => e.shown.document) ∧
      ([] : List Char) = [] := by
    refine flatMap_append_inj ?_ hne hne (by simpa using h)
    intro d hd e he us vs heq
    obtain ⟨hde, hrest⟩ := Procedure.listing_append_inj (hds d hd) (hes e he) heq
    exact ⟨(Procedure.document_eq_iff _ _).mpr hde, hrest⟩
  rw [← Document.map_eq_iff_beq Procedure.document_eq_iff, List.map_map, List.map_map]
  exact hdocs.1

/-- A program is told by its listing, as far as it is shown. -/
lemma shown_eq_of_listing {p q : Program} (hp : p.Readable) (hq : q.Readable)
    (h : p.listing .plain = q.listing .plain) : (p.shown == q.shown) = true := by
  have hlist := congrArg String.toList h
  have hcomma (us : List Char) : EndsNumber (", ".toList ++ us) := endsNumber_cons (by decide) _
  have hclose (us : List Char) : EndsNumber (") -> ".toList ++ us) := endsNumber_cons (by decide) _
  rw [toList_listing, toList_listing] at hlist
  obtain ⟨hname, -, h₁⟩ := hp.name.append_inj hq.name (by decide) (by decide)
    (List.append_cancel_left hlist)
  obtain ⟨hline, h₂⟩ := repr_append_inj (hcomma _) (hcomma _) h₁
  obtain ⟨hcolumn, h₃⟩ := repr_append_inj (hclose _) (hclose _) (List.append_cancel_left h₂)
  obtain ⟨htarget, h₄⟩ := Name.text_append_inj hp.entry hq.entry (by decide) (by decide)
    (List.append_cancel_left h₃)
  have hprocs := procedures_eq_of_listing hp.procedures hq.procedures h₄
  have hentry : p.entry = q.entry := by
    rw [← Entry.document_inj]
    simp [Entry.document, htarget, UInt32.toNat_inj.mp hline, UInt32.toNat_inj.mp hcolumn]
  simp [beq_def, shown, hname, hentry, hprocs]

lemma listing_eq_of_shown {p q : Program} (h : (p.shown == q.shown) = true) (palette : Palette) :
    p.listing palette = q.listing palette := by
  simp only [beq_def, shown, Bool.and_eq_true, beq_iff_eq] at h
  obtain ⟨hname, hentry, hprocs⟩ := h
  have hlists := Procedure.map_listing_eq hprocs palette
  simp only [List.map_map, Function.comp_def, Procedure.listing_shown] at hlists
  have hline : p.listEntry palette = q.listEntry palette := by
    delta listEntry
    rw [hname, hentry]
  rw [listing, listing, hline, hlists]

end Program
end ParserChain
