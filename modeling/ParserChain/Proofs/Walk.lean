import ParserChain.Proofs.Turn

/-! Walks are turns in a row, with the visits on the way. A program follows a reading if it walks to
where the reading ends, hands over to the catch-all where the reading stops, and leaves the range
of the counters where the reading does. -/
namespace ParserChain

/-- The names of the links before one. -/
def Name.links (base : String) (n : Nat) : List Name := (List.range n).map (link base)

@[simp] lemma Name.length_links (base : String) (n : Nat) : (links base n).length = n := by
  simp [links]

lemma Name.links_succ (base : String) (n : Nat) :
    links base (n + 1) = links base n ++ [link base n] := by
  simp [links, List.range_succ]

namespace Program

/-- Turns from one state to another, with the visits before the latter. -/
inductive Walk (p : Program) : State → List Visit → State → Prop
  | stay (s : State) : Walk p s [] s
  | turn {s t u : State} {visits : List Visit} (h : p.turn s = .next t) (tail : Walk p t visits u) :
      Walk p s (s.visit :: visits) u

namespace Walk
variable {p : Program} {s t u : State} {vs ws : List Visit}

lemma one (h : p.turn s = .next t) : p.Walk s [s.visit] t := .turn h (.stay t)

theorem trans (h : p.Walk s vs t) (h' : p.Walk t ws u) : p.Walk s (vs ++ ws) u := by
  induction h with
  | stay s => exact h'
  | turn hs tail ih => exact .turn hs (ih h')

/-- A walk that has moved came from its last turn. -/
lemma eq_or_last (h : p.Walk s vs t) : (vs = [] ∧ t = s) ∨ ∃ before r,
    vs = before ++ [r.visit] ∧ p.Walk s before r ∧ p.turn r = .next t := by
  induction h with
  | stay s => exact .inl ⟨rfl, rfl⟩
  | @turn s v t visits hturn tail ih =>
    right
    rcases ih with ⟨rfl, rfl⟩ | ⟨before, r, rfl, hbefore, hlast⟩
    · exact ⟨[], s, rfl, .stay s, hturn⟩
    · exact ⟨s.visit :: before, r, rfl, .turn hturn hbefore, hlast⟩

/-- A run makes a walk first, and goes on from its end. -/
theorem runFrom_add (h : p.Walk s vs t) (fuel : Nat) : p.runFrom (vs.length + fuel) s =
    { ending := (p.runFrom fuel t).ending, visits := vs ++ (p.runFrom fuel t).visits } := by
  induction h with
  | stay s => simp [-ending_runFrom]
  | @turn s t u vs hs tail ih =>
    rw [List.length_cons, Nat.add_right_comm]
    simp [runFrom, hs, ih, Run.after]

end Walk

/-- A walk through the links from one number up to another, with one visit to each. -/
def Passes (p : Program) (base : String) (m n : Nat) (s t : State) : Prop :=
  ∃ visits, p.Walk s visits t ∧ Name.links base m ++ visits.map (·.name) = Name.links base n

namespace Passes
variable {p : Program} {base : String} {k m n : Nat} {s t u : State}

lemma stay (s : State) : p.Passes base n n s s := ⟨[], .stay s, by simp⟩

lemma one (hs : s.current = .link base n) (h : p.turn s = .next t) : p.Passes base n (n + 1) s t :=
  ⟨[s.visit], .one h, by simp [Name.links_succ, State.visit, hs]⟩

theorem trans (h : p.Passes base k m s t) (h' : p.Passes base m n t u) : p.Passes base k n s u := by
  obtain ⟨vs, hvs, hm⟩ := h
  obtain ⟨ws, hws, hn⟩ := h'
  refine ⟨vs ++ ws, hvs.trans hws, ?_⟩
  rw [List.map_append, ← List.append_assoc, hm, hn]

/-- The run through links that are counted from zero. -/
lemma runFrom (h : p.Passes base 0 n s t) {fuel : Nat} (hfuel : n < fuel) :
    ∃ more, (p.runFrom fuel s).ending = (p.runFrom (more + 1) t).ending ∧
      (p.runFrom fuel s).visits.map (·.name) =
        Name.links base n ++ (p.runFrom (more + 1) t).visits.map (·.name) := by
  obtain ⟨visits, hwalk, hnames⟩ := h
  have hnames : visits.map (·.name) = Name.links base n := by simpa [Name.links] using hnames
  have hlen : visits.length = n := by
    rw [← List.length_map (·.name), hnames, Name.length_links]
  obtain ⟨more, rfl⟩ : ∃ more, fuel = visits.length + (more + 1) :=
    ⟨fuel - visits.length - 1, by omega⟩
  refine ⟨more, ?_, ?_⟩ <;> rw [hwalk.runFrom_add]
  rw [List.map_append, hnames]

lemma run_of_halt (h : p.Passes base 0 n s t) {outcome : Outcome}
    (ht : p.turn t = .halt outcome) {fuel : Nat} (hfuel : n < fuel) :
    (p.runFrom fuel s).ending = .done outcome ∧
      (p.runFrom fuel s).visits.map (·.name) = Name.links base n ++ [t.current] := by
  obtain ⟨more, hending, hvisits⟩ := h.runFrom hfuel
  rw [hending, hvisits]
  simp [Program.runFrom, ht, State.visit]

lemma ending_of_fault (h : p.Passes base 0 n s t) {fault : Fault} (ht : p.turn t = .fault fault)
    {fuel : Nat} (hfuel : n < fuel) : (p.runFrom fuel s).ending = .fault fault := by
  obtain ⟨more, hending, -⟩ := h.runFrom hfuel
  rw [hending]
  simp [Program.endingFrom, ht]

end Passes

/-- What the program does, entered at the cursor, if it does what a reading says. -/
def Follows (p : Program) (base : String) (c : Cursor) (acc : List Value)
    (stack : List (List Value))
    (yields : List Value → List Value → List (List Value) → Prop) : Reading (List Value) → Prop
  | .read vs next => ∃ acc' stack', yields vs acc' stack' ∧
      p.Passes base c.index next.index (c.state base acc stack) (next.state base acc' stack')
  | .failed place => ∃ acc' stack',
      p.Passes base c.index (place.index + 1) (c.state base acc stack)
        (place.refused base acc' stack')
  | .overflow => ∃ n t, p.Passes base c.index n (c.state base acc stack) t ∧
      t.current = .link base n ∧ p.turn t = .fault .counterOverflow

namespace Follows
variable {p : Program} {base : String} {c : Cursor} {acc : List Value} {stack : List (List Value)}
  {yields yields' : List Value → List Value → List (List Value) → Prop}
  {r : Reading (List Value)}

lemma mono (h : p.Follows base c acc stack yields r)
    (himp : ∀ vs next acc' stack', r = .read vs next → yields vs acc' stack' →
      yields' vs acc' stack') : p.Follows base c acc stack yields' r := by
  cases r with
  | read vs next =>
    obtain ⟨acc', stack', hyields, hpass⟩ := h
    exact ⟨acc', stack', himp vs next acc' stack' rfl hyields, hpass⟩
  | failed place => exact h
  | overflow => exact h

/-- Following one reading and then another is following both in a row. -/
theorem andThen {f : Cursor → Reading (List Value)} (h : p.Follows base c acc stack yields r)
    (hnext : ∀ vs next acc' stack', r = .read vs next → yields vs acc' stack' →
      p.Follows base next acc' stack' (fun ws => yields' (vs ++ ws)) (f next)) :
    p.Follows base c acc stack yields' (r.andThen fun vs next => (f next).map (vs ++ ·)) := by
  cases r with
  | failed place => exact h
  | overflow => exact h
  | read vs next =>
    obtain ⟨acc', stack', hyields, hpass⟩ := h
    have hf := hnext vs next acc' stack' rfl hyields
    simp only [Reading.andThen]
    cases hr : f next with
    | read ws behind =>
      rw [hr] at hf
      obtain ⟨acc'', stack'', hyields', hpass'⟩ := hf
      exact ⟨acc'', stack'', hyields', hpass.trans hpass'⟩
    | failed place =>
      rw [hr] at hf
      obtain ⟨acc'', stack'', hpass'⟩ := hf
      exact ⟨acc'', stack'', hpass.trans hpass'⟩
    | overflow =>
      rw [hr] at hf
      obtain ⟨n, t, hpass', ht, hturn⟩ := hf
      exact ⟨n, t, hpass.trans hpass', ht, hturn⟩

end Follows

end Program
end ParserChain
