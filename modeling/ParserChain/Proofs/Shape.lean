import Mathlib.Data.List.Nodup
import ParserChain.Proofs.Flawless
import ParserChain.Proofs.Link

/-! The shape of a compiled chain: numbered links, each of which calls the next one, a catch-all
directly behind every link that reads input, and nothing else. The check accepts that shape, so
that it makes no difference whether a compilation is checked. -/
namespace ParserChain

/-- A procedure and, if it reads input, its catch-all: one that takes anything and gives the
reason. -/
def Procedure.withCatchAll (d : Procedure) (reason : String) : List Procedure :=
  d :: if d.input.isEmpty then [] else [{ name := d.name.catchAll, body := .error reason }]

/-- The shape of a chain that ends on the link `last`. -/
structure Program.IsChain (p : Program) (last : Nat) : Prop where
  entry : p.entry.target = .link p.name 0
  numbered : p.links.map (·.name) = (List.range (last + 1)).map (Name.link p.name)
  calls_next : ∀ (i : Nat) (d : Procedure), i < last → p.links[i]? = some d →
    d.body.target? = some (.link p.name (i + 1))
  one_caller : ∀ i < last, p.targets.count (.link p.name (i + 1)) = 1
  success : (p.procedures.getLast?.map fun d => (d.name, d.body)) = some (.link p.name last, .ok)
  one_success : p.procedures.countP (·.body.isOk) = 1
  falls_back : ∀ d ∈ p.links,
    d.fallback = if d.input.isEmpty then none else some d.name.catchAll
  /-- The procedures are the links, each with its catch-all if it has one. -/
  emitted : ∃ reasons : List String, reasons.length = p.links.length ∧
    p.procedures = (List.zipWith Procedure.withCatchAll p.links reasons).flatten
  ordered : p.names.Pairwise fun m n => m.lt n = true

namespace Body

@[simp] lemma target?_ok : ok.target? = none := rfl
@[simp] lemma target?_error (reason : String) : (error reason).target? = none := rfl
@[simp] lemma isOk_ok : ok.isOk = true := rfl
@[simp] lemma isOk_error (reason : String) : (error reason).isOk = false := rfl

end Body

namespace Name

lemma ne_of_lt {m n : Name} (h : m.lt n = true) : m ≠ n := by
  rintro rfl
  obtain ⟨base, step, role⟩ := m
  cases role <;> simp [lt] at h

@[simp] lemma link_lt_link {base : String} {i j : Nat} :
    (link base i).lt (link base j) = true ↔ i < j := by
  change (decide (base < base) || (base == base && (decide (i < j) ||
    (i == j && Role.link == .link && Role.link == .catchAll)))) = true ↔ _
  simp

lemma lt_catchAll {n : Name} (h : n.isCatchAll = false) : n.lt n.catchAll = true := by
  obtain ⟨base, step, role⟩ := n
  cases role <;> simp_all [lt, catchAll, isCatchAll]

end Name

namespace Program.IsChain
variable {p : Program} {last : Nat}

lemma names_nodup (h : p.IsChain last) : p.names.Nodup :=
  h.ordered.imp Name.ne_of_lt

lemma isCatchAll_of_mem_links {d : Procedure} (hd : d ∈ p.links) : d.name.isCatchAll = false := by
  simpa using (List.mem_filter.mp hd).2

lemma mem_procedures {d : Procedure} (hd : d ∈ p.links) : d ∈ p.procedures :=
  (List.mem_filter.mp hd).1

lemma length_links (h : p.IsChain last) : p.links.length = last + 1 := by
  have hlen := congrArg List.length h.numbered
  simpa using hlen

lemma name_of_getElem? (h : p.IsChain last) {i : Nat} {d : Procedure} (hd : p.links[i]? = some d) :
    d.name = .link p.name i := by
  have hname : (p.links.map (·.name))[i]? = some d.name := by simp [hd]
  have hi : i < last + 1 := by
    have hlt := (List.getElem?_eq_some_iff.mp hd).1
    rwa [h.length_links] at hlt
  rw [h.numbered, List.getElem?_map, List.getElem?_range hi] at hname
  exact (Option.some.inj hname).symm

/-- A procedure is a link, or the catch-all of a link that reads input. -/
lemma link_or_catchAll (h : p.IsChain last) {d : Procedure} (hd : d ∈ p.procedures) :
    d ∈ p.links ∨ ∃ l ∈ p.links, l.input.isEmpty = false ∧
      ∃ reason, d = { name := l.name.catchAll, body := .error reason } := by
  obtain ⟨reasons, -, hp⟩ := h.emitted
  rw [hp, List.mem_flatten] at hd
  obtain ⟨block, hblock, hd⟩ := hd
  obtain ⟨i, hi⟩ := List.mem_iff_getElem?.mp hblock
  obtain ⟨l, reason, hl, -, rfl⟩ := List.getElem?_zipWith_eq_some.mp hi
  have hmem := List.mem_of_getElem? hl
  rcases List.mem_cons.mp hd with rfl | hd
  · exact .inl hmem
  · cases he : l.input.isEmpty with
    | true => simp [he] at hd
    | false => exact .inr ⟨l, hmem, he, reason, by simpa [he] using hd⟩

/-- The name of a catch-all is there for every link that reads input. -/
lemma catchAll_mem_names (h : p.IsChain last) {d : Procedure} (hd : d ∈ p.links)
    (hinput : d.input.isEmpty = false) : d.name.catchAll ∈ p.names := by
  obtain ⟨reasons, hlen, hp⟩ := h.emitted
  obtain ⟨i, hi, rfl⟩ := List.mem_iff_getElem.mp hd
  have hreason : i < reasons.length := by omega
  have hblock : p.links[i].withCatchAll reasons[i] ∈
      List.zipWith Procedure.withCatchAll p.links reasons :=
    List.mem_iff_getElem.mpr ⟨i, by simp; omega, List.getElem_zipWith⟩
  have hcatch : { name := p.links[i].name.catchAll, body := .error reasons[i] } ∈
      p.links[i].withCatchAll reasons[i] := by
    simp [Procedure.withCatchAll, hinput]
  have hmem := List.mem_flatten_of_mem hblock hcatch
  rw [← hp] at hmem
  exact List.mem_map_of_mem hmem

/-- Calls are made by the links before the last one, each of the next link. -/
lemma exists_of_target (h : p.IsChain last) {d : Procedure} {target : Name}
    (hd : d ∈ p.procedures) (ht : d.body.target? = some target) :
    ∃ i < last, p.links[i]? = some d ∧ target = .link p.name (i + 1) := by
  rcases h.link_or_catchAll hd with hl | ⟨l, -, -, reason, rfl⟩
  · obtain ⟨i, hi⟩ := List.mem_iff_getElem?.mp hl
    have hle : i < last + 1 := h.length_links ▸ (List.getElem?_eq_some_iff.mp hi).1
    by_cases heq : i = last
    · have hname := h.name_of_getElem? hi
      obtain ⟨e, he, hsucc⟩ := Option.map_eq_some_iff.mp h.success
      obtain ⟨hename, hebody⟩ := Prod.mk.inj hsucc
      have hde : d = e := List.inj_on_of_nodup_map h.names_nodup hd (List.mem_of_getLast? he)
        (by rw [hname, hename, heq])
      simp [hde, hebody] at ht
    · have hlt : i < last := by omega
      exact ⟨i, hlt, hi, Option.some.inj (ht.symm.trans (h.calls_next i d hlt hi))⟩
  · simp at ht

lemma le_of_link_mem (h : p.IsChain last) {n : Nat} (hn : .link p.name n ∈ p.names) : n ≤ last := by
  obtain ⟨d, hd, hname⟩ := List.mem_map.mp hn
  rcases h.link_or_catchAll hd with hl | ⟨l, -, -, reason, rfl⟩
  · obtain ⟨i, hi⟩ := List.mem_iff_getElem?.mp hl
    have hlt : i < last + 1 := h.length_links ▸ (List.getElem?_eq_some_iff.mp hi).1
    have heq : i = n := (Name.mk.inj ((h.name_of_getElem? hi).symm.trans hname)).2.1
    omega
  · simp [Name.catchAll, Name.link] at hname

lemma count_targets_le (h : p.IsChain last) (name : Name) : p.targets.count name ≤ 1 := by
  by_cases hn : name ∈ p.targets
  · obtain ⟨d, hd, ht⟩ := List.mem_filterMap.mp hn
    obtain ⟨i, hi, -, rfl⟩ := h.exists_of_target hd ht
    exact Nat.le_of_eq (h.one_caller i hi)
  · rw [List.count_eq_zero.mpr hn]
    exact Nat.zero_le 1

/-- What is fallen back to is what is a catch-all. -/
lemma fallbacks_eq (h : p.IsChain last) : p.fallbacks = p.names.filter (·.isCatchAll) := by
  obtain ⟨reasons, hlen, hp⟩ := h.emitted
  have hfall := h.falls_back
  have hlink : ∀ d ∈ p.links, d.name.isCatchAll = false := fun _ => isCatchAll_of_mem_links
  simp only [fallbacks, names, hp]
  clear hp
  generalize p.links = links at hlen hfall hlink
  induction links generalizing reasons with
  | nil => simp
  | cons d links ih =>
    cases reasons with
    | nil => simp at hlen
    | cons reason reasons =>
      have htail := ih reasons (by simpa using hlen)
        (fun e he => hfall e (List.mem_cons_of_mem d he))
        (fun e he => hlink e (List.mem_cons_of_mem d he))
      have hd := hfall d List.mem_cons_self
      have hname := hlink d List.mem_cons_self
      cases hi : d.input.isEmpty <;>
        simp [Procedure.withCatchAll, hi, hd, hname, htail]

lemma head_names (h : p.IsChain last) : p.names.head? = some p.entry.target := by
  obtain ⟨reasons, hlen, hp⟩ := h.emitted
  have hlinks := h.length_links
  cases hl : p.links with
  | nil => simp [hl] at hlinks
  | cons d links =>
    have hname := h.name_of_getElem? (i := 0) (d := d) (by simp [hl])
    cases reasons with
    | nil => simp [hl] at hlen
    | cons reason reasons => simp [names, hp, hl, Procedure.withCatchAll, hname, h.entry]

lemma link_mem_names (h : p.IsChain last) {n : Nat} (hn : n ≤ last) :
    .link p.name n ∈ p.names := by
  have hlen := h.length_links
  have hd : p.links[n]? = some p.links[n] := List.getElem?_eq_getElem (by omega)
  rw [← h.name_of_getElem? hd]
  exact List.mem_map_of_mem (mem_procedures (List.mem_of_getElem? hd))

/-- The names ascend, and so the later of two links stands further on. -/
lemma lt_of_names (h : p.IsChain last) {i j m n : Nat} (hmn : m < n)
    (hi : p.names[i]? = some (.link p.name m)) (hj : p.names[j]? = some (.link p.name n)) :
    i < j := by
  obtain ⟨hilen, hi⟩ := List.getElem?_eq_some_iff.mp hi
  obtain ⟨hjlen, hj⟩ := List.getElem?_eq_some_iff.mp hj
  by_cases hij : i < j
  · exact hij
  · rcases Nat.lt_or_eq_of_le (Nat.le_of_not_lt hij) with hlt | rfl
    · have hlt := List.pairwise_iff_getElem.mp h.ordered j i hjlen hilen hlt
      rw [hi, hj, Name.link_lt_link] at hlt
      omega
    · have heq := (Name.mk.inj (hi.symm.trans hj)).2.1
      omega

/-- A program of the shape of a chain has no flaw. -/
theorem flawless (h : p.IsChain last) : p.Flawless where
  names_nodup := h.names_nodup
  entry_first := h.head_names
  one_success := h.one_success
  success_last := by
    obtain ⟨d, hd, hsucc⟩ := Option.map_eq_some_iff.mp h.success
    simp [hd, (Prod.mk.inj hsucc).2]
  calls_forward := by
    intro i d target hd ht
    obtain ⟨k, hk, hdk, rfl⟩ := h.exists_of_target (List.mem_of_getElem? hd) ht
    have hsource : p.names[i]? = some (.link p.name k) := by
      simp [names, hd, h.name_of_getElem? hdk]
    obtain ⟨j, hj⟩ := List.mem_iff_getElem?.mp (h.link_mem_names (n := k + 1) hk)
    exact ⟨⟨j, h.lt_of_names (Nat.lt_add_one k) hsource hj, hj⟩, rfl⟩
  falls_back := by
    intro d hd name hf
    rcases h.link_or_catchAll hd with hl | ⟨l, -, -, reason, rfl⟩
    · rw [h.falls_back d hl] at hf
      cases hi : d.input.isEmpty with
      | true => simp [hi] at hf
      | false =>
        have hname : d.name.catchAll = name := by simpa [hi] using hf
        exact hname ▸ ⟨Name.isCatchAll_catchAll _, h.catchAll_mem_names hl hi⟩
    · simp at hf
  few_callers := fun name => Nat.le_trans (h.count_targets_le name) (by decide)
  owned := by
    intro name hname hcatch
    rw [h.fallbacks_eq, List.count_filter hcatch]
    exact List.count_eq_one_of_mem h.names_nodup hname

end Program.IsChain

namespace Link

/-- What the catch-all of a link says. -/
def reason : Link → String
  | bound run => Combinator.expected (Segment.fuse 0 run).used
  | enter => ""
  | exit _ => ""

/-- The links themselves, without their catch-alls. -/
def procedures (base : String) (step : Nat) (ls : List Link) : List Procedure :=
  (ls.zipIdx step).map fun (l, i) => l.procedure base i

variable (base : String) (step : Nat)

@[simp] lemma procedures_nil : procedures base step [] = [] := rfl

@[simp] lemma procedures_cons (l : Link) (ls : List Link) :
    procedures base step (l :: ls) = l.procedure base step :: procedures base (step + 1) ls := rfl

@[simp] lemma length_procedures (ls : List Link) :
    (procedures base step ls).length = ls.length := by
  simp [procedures]

lemma procedures_getElem? (ls : List Link) (i : Nat) :
    (procedures base step ls)[i]? = ls[i]?.map (·.procedure base (step + i)) := by
  simp [procedures, Function.comp_def]

@[simp] lemma name_procedure (l : Link) : (l.procedure base step).name = .link base step := by
  cases l <;> rfl

lemma names_procedures (ls : List Link) : (procedures base step ls).map (·.name) =
    (List.range' step ls.length).map (Name.link base) := by
  induction ls generalizing step with
  | nil => rfl
  | cons l ls ih => simp [ih, List.range'_succ]

@[simp] lemma target_procedure (l : Link) :
    (l.procedure base step).body.target? = some (.link base (step + 1)) := by
  cases l <;> rfl

@[simp] lemma isOk_procedure (l : Link) : (l.procedure base step).body.isOk = false := by
  cases l <;> rfl

lemma fallback_procedure (l : Link) : (l.procedure base step).fallback =
    if (l.procedure base step).input.isEmpty then none
    else some (Name.link base step).catchAll := by
  cases l with
  | bound run =>
    cases h : (Segment.fuse 0 run).inputs.isEmpty <;>
      simp [procedure, Segment.link, Segment.matchesInput, h]
  | enter => rfl
  | exit f => rfl

/-- The procedures of a link are the link and its catch-all. -/
lemma block_eq (l : Link) : l.block base step = (l.procedure base step).withCatchAll l.reason := by
  cases l with
  | bound run =>
    cases h : (Segment.fuse 0 run).inputs.isEmpty <;>
      simp [block, procedure, catchAll?, Procedure.withCatchAll, Segment.link,
        Segment.matchesInput, Segment.catchAll, reason, h]
  | enter => rfl
  | exit f => rfl

lemma layout_eq (ls : List Link) : layout base step ls =
    (List.zipWith Procedure.withCatchAll (procedures base step ls) (ls.map reason)).flatten := by
  induction ls generalizing step with
  | nil => rfl
  | cons l ls ih => simp [layout, block_eq, ih]

lemma filter_layout (ls : List Link) :
    (layout base step ls).filter (!·.name.isCatchAll) = procedures base step ls := by
  induction ls generalizing step with
  | nil => rfl
  | cons l ls ih =>
    cases hi : (l.procedure base step).input.isEmpty <;>
      simp [layout, block_eq, Procedure.withCatchAll, hi, ih]

lemma targets_layout (ls : List Link) : (layout base step ls).filterMap (·.body.target?) =
    (List.range' (step + 1) ls.length).map (Name.link base) := by
  induction ls generalizing step with
  | nil => rfl
  | cons l ls ih =>
    cases hi : (l.procedure base step).input.isEmpty <;>
      simp [layout, block_eq, Procedure.withCatchAll, hi, ih, List.range'_succ,
        List.filterMap_cons]

lemma countP_isOk_layout (ls : List Link) : (layout base step ls).countP (·.body.isOk) = 0 := by
  induction ls generalizing step with
  | nil => rfl
  | cons l ls ih =>
    cases hi : (l.procedure base step).input.isEmpty <;>
      simp [layout, block_eq, Procedure.withCatchAll, hi, ih]

lemma names_layout (ls : List Link) {d : Procedure} (hd : d ∈ layout base step ls) :
    ∃ i, step ≤ i ∧ i < step + ls.length ∧
      (d.name = .link base i ∨ d.name = (Name.link base i).catchAll) := by
  induction ls generalizing step with
  | nil => simp [layout] at hd
  | cons l ls ih =>
    rw [layout, block_eq, List.mem_append] at hd
    rcases hd with hd | hd
    · refine ⟨step, Nat.le_refl step, by simp, ?_⟩
      rcases List.mem_cons.mp hd with rfl | hd
      · simp
      · cases hi : (l.procedure base step).input.isEmpty <;> simp [hi] at hd
        simp [hd]
    · obtain ⟨i, hle, hlt, hname⟩ := ih (step + 1) hd
      exact ⟨i, by omega, by simp only [List.length_cons]; omega, hname⟩

lemma pairwise_names_layout (ls : List Link) :
    ((layout base step ls).map (·.name)).Pairwise fun m n => m.lt n = true := by
  induction ls generalizing step with
  | nil => exact .nil
  | cons l ls ih =>
    rw [layout, List.map_append, List.pairwise_append]
    refine ⟨?_, ih (step + 1), ?_⟩
    · have hlt := Name.lt_catchAll (Name.isCatchAll_link base step)
      cases hi : (l.procedure base step).input.isEmpty <;>
        simp [block_eq, Procedure.withCatchAll, hi, hlt]
    · intro m hm n hn
      obtain ⟨d, hd, rfl⟩ := List.mem_map.mp hm
      obtain ⟨e, he, rfl⟩ := List.mem_map.mp hn
      obtain ⟨i, -, hi, hdname⟩ :=
        names_layout base step [l] (d := d) (by simpa [layout] using hd)
      obtain ⟨j, hj, -, hename⟩ := names_layout base (step + 1) ls he
      have hij : i < j := by simp only [List.length_singleton] at hi; omega
      rcases hdname with hd | hd <;> rcases hename with he | he <;>
        simp [hd, he, Name.lt, Name.link, Name.catchAll, hij]

end Link

namespace Program

lemma links_ofLinks (name : String) (start : Position) (links : List Link) :
    (ofLinks name start links).links =
      Link.procedures name 0 links ++ [successLink name links.length] := by
  simp [Program.links, ofLinks, Link.filter_layout, successLink]

lemma targets_ofLinks (name : String) (start : Position) (links : List Link) :
    (ofLinks name start links).targets =
      (List.range' 1 links.length).map (Name.link name) := by
  simp [targets, ofLinks, Link.targets_layout, successLink, List.filterMap_cons]

/-- The program of links has the shape of a chain that ends behind the last of them. -/
theorem isChain_ofLinks (name : String) (start : Position) (links : List Link) :
    (ofLinks name start links).IsChain links.length where
  entry := rfl
  numbered := by
    rw [links_ofLinks, List.map_append, Link.names_procedures, List.range_succ, List.map_append,
      List.range_eq_range']
    rfl
  calls_next := by
    intro i d hi hd
    rw [links_ofLinks, List.getElem?_append_left (by simpa using hi),
      Link.procedures_getElem?] at hd
    obtain ⟨l, -, rfl⟩ := Option.map_eq_some_iff.mp hd
    simp [ofLinks]
  one_caller := by
    intro i hi
    rw [targets_ofLinks]
    refine List.count_eq_one_of_mem ?_ ?_
    · exact (List.nodup_range' ..).map fun a b hab => (Name.mk.inj hab).2.1
    · exact List.mem_map_of_mem (List.mem_range'_1.mpr (by omega))
  success := by simp [ofLinks, successLink]
  one_success := by simp [ofLinks, Link.countP_isOk_layout, successLink]
  falls_back := by
    intro d hd
    rw [links_ofLinks, List.mem_append] at hd
    rcases hd with hd | hd
    · obtain ⟨⟨l, i⟩, -, rfl⟩ := List.mem_map.mp hd
      simp [Link.fallback_procedure]
    · rw [List.mem_singleton.mp hd]
      rfl
  emitted := by
    refine ⟨links.map Link.reason ++ [""], by simp [links_ofLinks], ?_⟩
    rw [links_ofLinks, List.zipWith_append (by simp), List.flatten_append, ← Link.layout_eq]
    rfl
  ordered := by
    rw [names, ofLinks, List.map_append, List.pairwise_append]
    refine ⟨Link.pairwise_names_layout name 0 links, by simp, ?_⟩
    intro m hm n hn
    obtain ⟨d, hd, rfl⟩ := List.mem_map.mp hm
    obtain ⟨i, -, hi, hname⟩ := Link.names_layout name 0 links hd
    have hlt : i < links.length := by omega
    have hn : n = .link name links.length := by simpa [successLink] using hn
    rcases hname with hname | hname <;> simp [hname, hn, Name.lt, Name.link, Name.catchAll, hlt]

theorem verify_ofLinks (name : String) (start : Position) (links : List Link) :
    (ofLinks name start links).verify = .ok () := by
  have hflaw := (flaw?_eq_none_iff _).mpr (isChain_ofLinks name start links).flawless
  rw [verify, hflaw]

end Program

open Combinator in
/-- A step stands in the tree for at most two links. -/
lemma Expands.length_le {steps : List Combinator} {links : List Link} (h : Expands steps links) :
    links.length ≤ 2 * nodesAll steps := by
  induction h with
  | nil => exact Nat.zero_le _
  | @bound run rest links hne hrun hrest tail ih =>
    obtain ⟨c, cs, rfl⟩ := List.exists_cons_of_ne_nil hne
    have hpos := c.nodes_pos
    simp only [nodesAll_append, nodesAll, List.length_cons]
    omega
  | label hinner body ih =>
    simp only [nodesAll_append, nodesAll, nodes] at ih ⊢
    omega
  | traverse body tail ihBody ihTail =>
    simp only [nodesAll, nodes, List.length_append, List.length_cons]
    omega

/-- Whether the chain is checked makes no difference, since the check accepts every chain. -/
theorem Config.compile_eq (config : Config) (name : String) (steps : List Combinator) :
    config.compile name steps =
      if steps.isEmpty then .error (.emptySequence name)
      else match (closedChain name steps).finish with
        | .error c => .error (.unsupportedCombinator name c)
        | .ok _ => .ok ((closedChain name steps).program config name) := by
  unfold compile compilation
  cases hemp : steps.isEmpty with
  | true => simp
  | false =>
    cases hd : (closedChain name steps).finish with
    | error c => simp [hd]
    | ok last =>
      obtain ⟨links, hl⟩ := exists_expands_of_closedChain hd
      obtain ⟨-, hprog⟩ := hl.closedChain_eq config name
      cases config.verify <;> simp [hd, hprog, Program.verify_ofLinks, Except.map]

/-- What compiles is the program of the links that the sequence expands to. -/
theorem expands_of_compile {config : Config} {name : String} {steps : List Combinator}
    {p : Program} (h : config.compile name steps = .ok p) :
    ∃ links, Expands steps links ∧ p = Program.ofLinks name config.start links := by
  rw [config.compile_eq] at h
  split at h
  · simp at h
  · cases hd : (closedChain name steps).finish with
    | error c => simp [hd] at h
    | ok last =>
      obtain ⟨links, hl⟩ := exists_expands_of_closedChain hd
      obtain ⟨-, hprog⟩ := hl.closedChain_eq config name
      exact ⟨links, hl, by simpa [hd, hprog] using h.symm⟩

/-- A sequence that expands compiles to the program of its links. -/
theorem Expands.compile_eq {steps : List Combinator} {links : List Link} (h : Expands steps links)
    (hne : steps ≠ []) (config : Config) (name : String) :
    config.compile name steps = .ok (Program.ofLinks name config.start links) := by
  obtain ⟨hfin, hprog⟩ := h.closedChain_eq config name
  have hemp : steps.isEmpty = false := by simpa using hne
  simp [config.compile_eq, hemp, hfin, hprog]

/-- Every program that compiles unchecked has the shape of a chain. From less than 2 ^ 31 steps it
has no more links than a 32-bit counter can number. The check accepts it: checked or not, the
result is the same, and a broken chain is never reported. -/
theorem compile_isChain (name : String) (steps : List Combinator)
    (hnodes : Combinator.nodesAll steps < 2147483648) :
    (∀ (start : Position) (p : Program), Config.compile ⟨false, start⟩ name steps = .ok p →
      p.name = name ∧ ∃ last, last < Counter.largest ∧ p.IsChain last ∧ p.verify = .ok ()) ∧
    (∀ start : Position,
      Config.compile ⟨true, start⟩ name steps = Config.compile ⟨false, start⟩ name steps) ∧
    ∀ (config : Config) (base : String) (flaw : Flaw),
      config.compile name steps ≠ .error (.brokenChain base flaw) := by
  refine ⟨?_, ?_, ?_⟩
  · intro start p hp
    obtain ⟨links, hl, rfl⟩ := expands_of_compile hp
    have hlen := hl.length_le
    have hlast : links.length < Counter.largest := by
      unfold Counter.largest
      omega
    exact ⟨rfl, links.length, hlast, Program.isChain_ofLinks name start links,
      Program.verify_ofLinks name start links⟩
  · intro start
    rw [Config.compile_eq, Config.compile_eq]
    rfl
  · intro config base flaw h
    rw [config.compile_eq] at h
    split at h
    · simp at h
    · split at h <;> simp at h

open Combinator in
theorem compile_isChain_sample : nodesAll (sample ⟨"same", id⟩) < 2147483648 ∧
    ∃ p, Config.compile ⟨false, ⟨1, 1⟩⟩ "p" (sample ⟨"same", id⟩) = .ok p ∧
      p.name = "p" ∧ ∃ last, last < Counter.largest ∧ p.IsChain last ∧ p.verify = .ok () := by
  have hnodes : nodesAll (sample ⟨"same", id⟩) < 2147483648 := by decide
  have hp := (expands_sample ⟨"same", id⟩).compile_eq (by simp [sample])
    ⟨false, ⟨1, 1⟩⟩ "p"
  exact ⟨hnodes, _, hp, (compile_isChain "p" _ hnodes).1 ⟨1, 1⟩ _ hp⟩

end ParserChain
