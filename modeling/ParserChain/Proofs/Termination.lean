import ParserChain.Proofs.Transfer

/-! Whether runs end. The check sends every call forward, but lets a procedure fall back to one that
stands before it. A run that goes on for ever does so over and over, and where nothing goes on from
such a fallback every run ends. -/
namespace ParserChain
namespace Program

/-- Where a name stands among those of the program. -/
def place (p : Program) (name : Name) : Nat := p.names.idxOf name

/-- A procedure of the first name falls back to the second, which stands no later. -/
def Retreats (p : Program) (m n : Name) : Prop :=
  ∃ d ∈ p.procedures, d.name = m ∧ d.fallback = some n ∧ p.place n ≤ p.place m

/-- Among the turns of a walk is a retreat. -/
def TakesRetreat (p : Program) (s : State) (visits : List Visit) (t : State) : Prop :=
  ∃ before after u v, visits = before ++ u.visit :: after ∧ p.Walk s before u ∧
    p.turn u = .next v ∧ p.Retreats u.current v.current ∧ p.Walk v after t

/-- What is fallen back to from the same or a later place does not go on itself. -/
def RetreatsEnd (p : Program) : Prop :=
  ∀ d ∈ p.procedures, ∀ m, p.Retreats m d.name → d.body.target? = none ∧ d.fallback = none

lemma RetreatsEnd.turn_ne_next {p : Program} (h : p.RetreatsEnd) {m : Name} {s : State}
    (hretreat : p.Retreats m s.current) (t : State) : p.turn s ≠ .next t := by
  intro hturn
  obtain ⟨d, hd, hname, hover⟩ := exists_handsOver hturn
  obtain ⟨htarget, hfallback⟩ := h d hd m (hname ▸ hretreat)
  cases hover with
  | refused hfall => simp [hfallback] at hfall
  | matched hmatch hbody hacc hmove => simp [hbody, Body.target?] at htarget

/-- A retreat to what does not go on is the last turn of a walk. -/
lemma TakesRetreat.last {p : Program} {s t : State} {visits : List Visit}
    (h : p.TakesRetreat s visits t) (hends : p.RetreatsEnd) : ∃ before u,
      visits = before ++ [u.visit] ∧ p.Walk s before u ∧ p.turn u = .next t ∧
        p.Retreats u.current t.current := by
  obtain ⟨before, after, u, v, rfl, hbefore, hturn, hretreat, hafter⟩ := h
  cases hafter with
  | stay => exact ⟨before, u, rfl, hbefore, hturn, hretreat⟩
  | turn hnext tail => exact (hends.turn_ne_next hretreat _ hnext).elim

lemma place_lt_length {p : Program} {name : Name} (h : name ∈ p.names) :
    p.place name < p.procedures.length := by
  rw [place, ← List.length_map (·.name), ← names]
  exact List.idxOf_lt_length_iff.mpr h

namespace Flawless
variable {p : Program} (h : p.Flawless)
include h

lemma place_eq {i : Nat} {name : Name} (hi : p.names[i]? = some name) : p.place name = i := by
  obtain ⟨hlt, rfl⟩ := List.getElem?_eq_some_iff.mp hi
  exact h.names_nodup.idxOf_getElem i hlt

lemma entry_mem : p.entry.target ∈ p.names :=
  List.mem_of_mem_head? h.entry_first

/-- What is handed over to stands later, or is a retreat: calls go forward, and only a refusal can
go back. -/
theorem advances_of_turn {s t : State} (hturn : p.turn s = .next t) : t.current ∈ p.names ∧
    (p.place s.current < p.place t.current ∨ p.Retreats s.current t.current) := by
  obtain ⟨d, hd, hname, hover⟩ := exists_handsOver hturn
  cases hover with
  | @refused name hfall =>
    refine ⟨(h.falls_back d hd name hfall).2, ?_⟩
    rcases Nat.lt_or_ge (p.place s.current) (p.place name) with hlt | hle
    · exact .inl hlt
    · exact .inr ⟨d, hd, hname, hfall, hle⟩
  | matched hmatch hbody hacc hmove =>
    obtain ⟨i, hi⟩ := List.mem_iff_getElem?.mp hd
    obtain ⟨⟨j, hij, hj⟩, -⟩ := h.calls_forward i d _ hi (by rw [hbody]; rfl)
    refine ⟨List.mem_of_getElem? hj, .inl ?_⟩
    have hsource : p.names[i]? = some s.current := by simp [names, hi, hname]
    rw [h.place_eq hsource, h.place_eq hj]
    exact hij

end Flawless

/-- A run that is out of fuel has walked as many turns. -/
lemma exists_walk_of_outOfFuel {p : Program} {fuel : Nat} {s : State}
    (h : (p.runFrom fuel s).ending = .outOfFuel) : ∃ visits t, p.Walk s visits t ∧
      visits.length = fuel := by
  induction fuel generalizing s with
  | zero => exact ⟨[], s, .stay s, rfl⟩
  | succ fuel ih =>
    cases hturn : p.turn s with
    | halt outcome => simp [endingFrom, hturn] at h
    | fault fault => simp [endingFrom, hturn] at h
    | next t =>
      obtain ⟨visits, u, hwalk, hlen⟩ := ih (by simpa [endingFrom, hturn] using h)
      exact ⟨s.visit :: visits, u, .turn hturn hwalk, by simp [hlen]⟩

/-- A run that ends in a fault has walked to the turn that faults. -/
lemma exists_walk_of_fault {p : Program} {fuel : Nat} {s : State} {fault : Fault}
    (h : (p.runFrom fuel s).ending = .fault fault) : ∃ visits t, p.Walk s visits t ∧
      p.turn t = .fault fault := by
  induction fuel generalizing s with
  | zero => simp [endingFrom] at h
  | succ fuel ih =>
    cases hturn : p.turn s with
    | halt outcome => simp [endingFrom, hturn] at h
    | fault other =>
      obtain rfl : other = fault := by simpa [endingFrom, hturn] using h
      exact ⟨[], s, .stay s, hturn⟩
    | next t =>
      obtain ⟨visits, u, hwalk, hu⟩ := ih (by simpa [endingFrom, hturn] using h)
      exact ⟨s.visit :: visits, u, .turn hturn hwalk, hu⟩

namespace Flawless
variable {p : Program} (h : p.Flawless)
include h

/-- A walk gets on by as many places as it takes turns, or takes a retreat. -/
theorem advances_of_walk {s t : State} {visits : List Visit} (hwalk : p.Walk s visits t)
    (hs : s.current ∈ p.names) : t.current ∈ p.names ∧
      (p.place s.current + visits.length ≤ p.place t.current ∨ p.TakesRetreat s visits t) := by
  induction hwalk with
  | stay s => exact ⟨hs, .inl (Nat.le_refl _)⟩
  | @turn s v t visits hturn tail ih =>
    obtain ⟨hmem, hadvance⟩ := h.advances_of_turn hturn
    obtain ⟨hend, hrest⟩ := ih hmem
    refine ⟨hend, ?_⟩
    rcases hadvance with hlt | hretreat
    · rcases hrest with hle | ⟨before, after, u, w, rfl, hbefore, hnext, hretreat, hafter⟩
      · left
        rw [List.length_cons]
        omega
      · exact .inr ⟨s.visit :: before, after, u, w, rfl, .turn hturn hbefore, hnext, hretreat,
          hafter⟩
    · exact .inr ⟨[], visits, s, v, rfl, .stay s, hturn, hretreat, tail⟩

/-- As many turns in a row as there are procedures take a retreat. -/
theorem takesRetreat_of_walk {s t : State} {visits : List Visit} (hwalk : p.Walk s visits t)
    (hs : s.current ∈ p.names) (hlen : p.procedures.length ≤ visits.length) :
    p.TakesRetreat s visits t := by
  obtain ⟨ht, hle | hretreat⟩ := h.advances_of_walk hwalk hs
  · have hlt := place_lt_length ht
    omega
  · exact hretreat

end Flawless

lemma flawless_of_verify {p : Program} (h : p.verify = .ok ()) : p.Flawless := by
  rw [← flaw?_eq_none_iff]
  cases hflaw : p.flaw? with
  | none => rfl
  | some flaw => simp [verify, hflaw] at h

/-- Asks for a text. The catch-all stands before the link that falls back to it. -/
def asking (catchAll : Body) : Program where
  name := "p"
  entry := ⟨.link "p" 0, 1, 1⟩
  procedures :=
    [{ name := .link "p" 0, body := .invoke (.link "p" 1) .keep .keep .still },
      { name := (Name.link "p" 1).catchAll, body := catchAll },
      { name := .link "p" 1
        input := [.literal "a"]
        body := .ok
        fallback := some (Name.link "p" 1).catchAll }]

/-- Asks again whenever the text is not there. -/
def insisting : Program := asking (.invoke (.link "p" 1) .keep .keep .still)

lemma verify_insisting : insisting.verify = .ok () := by
  have hflaw : insisting.flaw? = none := by decide +kernel
  rw [verify, hflaw]

/-- The check accepts a program that goes on for ever. -/
theorem insisting_verified_but_endless :
    insisting.verify = .ok () ∧ ∀ fuel, (insisting.run fuel [98]).ending = .outOfFuel := by
  refine ⟨verify_insisting, ?_⟩
  let asked : State := ⟨.link "p" 1, [98], [], [], ⟨1, 1⟩⟩
  let refused : State := ⟨(Name.link "p" 1).catchAll, [98], [], [], ⟨1, 1⟩⟩
  have hfirst : insisting.turn (insisting.initial [98]) = .next asked := by decide +kernel
  have hrefuse : insisting.turn asked = .next refused := by decide +kernel
  have hagain : insisting.turn refused = .next asked := by decide +kernel
  have hloop (fuel : Nat) : insisting.endingFrom fuel asked = .outOfFuel ∧
      insisting.endingFrom fuel refused = .outOfFuel := by
    induction fuel with
    | zero => exact ⟨rfl, rfl⟩
    | succ fuel ih => simpa [endingFrom, hrefuse, hagain] using ih.symm
  intro fuel
  cases fuel with
  | zero => rfl
  | succ fuel => simpa [ending, endingFrom, hfirst] using (hloop fuel).1

/-- A verified program goes on for as many turns as it has procedures only through a fallback to
the same or an earlier place. If whatever is fallen back to like that does not go on itself, every
run ends. -/
theorem verified_run_retreats_or_ends {p : Program} (h : p.verify = .ok ()) (input : List UInt8) :
    (∀ (before : List Visit) (s : State) (during : List Visit) (t : State),
      p.Walk (p.initial input) before s → p.Walk s during t →
        p.procedures.length ≤ during.length → p.TakesRetreat s during t) ∧
      (p.RetreatsEnd → ∀ fuel, p.procedures.length < fuel →
        (p.run fuel input).ending ≠ .outOfFuel) := by
  have hflawless := flawless_of_verify h
  refine ⟨?_, ?_⟩
  · intro before s during t hbefore hduring hlen
    have hs := (hflawless.advances_of_walk hbefore hflawless.entry_mem).1
    exact hflawless.takesRetreat_of_walk hduring hs hlen
  · intro hends fuel hfuel hout
    obtain ⟨visits, t, hwalk, rfl⟩ := exists_walk_of_outOfFuel hout
    have hretreat := hflawless.takesRetreat_of_walk hwalk hflawless.entry_mem (Nat.le_of_lt hfuel)
    obtain ⟨before, u, rfl, hbefore, hturn, -⟩ := hretreat.last hends
    -- The turns before the last one take a retreat as well, and there the run was at its end.
    have hlen : p.procedures.length ≤ before.length := by
      simpa [Nat.lt_succ_iff] using hfuel
    have hearlier := hflawless.takesRetreat_of_walk hbefore hflawless.entry_mem hlen
    obtain ⟨_, _, -, -, -, hend⟩ := hearlier.last hends
    exact hends.turn_ne_next hend t hturn

/-- Asking again is a retreat in every three turns, and a catch-all that reports an error ends the
run. -/
theorem verified_run_retreats_or_ends_asking : (insisting.verify = .ok () ∧ ∃ during t,
      insisting.Walk (insisting.initial [98]) during t ∧
        insisting.procedures.length ≤ during.length ∧
        insisting.TakesRetreat (insisting.initial [98]) during t) ∧
    (asking (.error "a")).verify = .ok () ∧ (asking (.error "a")).RetreatsEnd ∧
      (asking (.error "a")).procedures.length < 4 ∧
      ((asking (.error "a")).run 4 [98]).ending ≠ .outOfFuel := by
  refine ⟨?_, ?_⟩
  · have hout : (insisting.run 3 [98]).ending = .outOfFuel := by decide +kernel
    obtain ⟨during, t, hwalk, hlen⟩ := exists_walk_of_outOfFuel hout
    have hle : insisting.procedures.length ≤ during.length := Nat.le_of_eq hlen.symm
    exact ⟨verify_insisting, during, t, hwalk, hle,
      (verified_run_retreats_or_ends verify_insisting [98]).1 [] _ during t (.stay _) hwalk hle⟩
  · have hflaw : (asking (.error "a")).flaw? = none := by decide +kernel
    have hverify : (asking (.error "a")).verify = .ok () := by rw [verify, hflaw]
    have hends : (asking (.error "a")).RetreatsEnd := by
      rintro d hd m ⟨e, he, -, hfall, -⟩
      have hname : d.name = (Name.link "p" 1).catchAll := by
        simp only [asking, List.mem_cons, List.not_mem_nil, or_false] at he
        rcases he with rfl | rfl | rfl <;> simp at hfall
        exact hfall.symm
      simp only [asking, List.mem_cons, List.not_mem_nil, or_false] at hd
      rcases hd with rfl | rfl | rfl <;> simp_all [Name.link, Name.catchAll]
    exact ⟨hverify, hends, by decide,
      (verified_run_retreats_or_ends hverify [98]).2 hends 4 (by decide)⟩

end Program
end ParserChain
