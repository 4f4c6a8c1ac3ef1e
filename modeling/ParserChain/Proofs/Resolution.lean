import ParserChain.Proofs.ForwardChain

/-! What names come to in a run of a checked program. Every name that a run enters is that of
exactly one procedure, wherever the run came from. Control reaches it by a call from an earlier
procedure, or, where it is a catch-all, from the one procedure that falls back to it. -/
namespace ParserChain

/-- The input, the guard and the stack of the procedure all match. -/
def Procedure.Accepts (d : Procedure) (s : State) : Prop :=
  ∃ bound rest saved stack, d.Matches s bound rest saved stack

def Fault.isUndefined : Fault → Bool
  | .undefinedProcedure _ => true
  | _ => false

lemma Shape.isUndefined_of_decode {s : Shape} {input : List UInt8} {fault : Fault}
    (h : s.decode input = .error fault) : fault.isUndefined = false := by
  unfold decode fixedValue at h
  repeat' split at h
  all_goals cases h <;> rfl

lemma Pattern.isUndefined_of_take {q : Pattern} {input : List UInt8} {fault : Fault}
    (h : q.take input = .error fault) : fault.isUndefined = false := by
  cases q with
  | literal text => cases h
  | capture var shape =>
    cases hdecode : shape.decode input with
    | ok unit => simp [take, hdecode, Except.map] at h
    | error other =>
      obtain rfl : other = fault := by simpa [take, hdecode, Except.map] using h
      exact Shape.isUndefined_of_decode hdecode

lemma isUndefined_of_takeAll {patterns : List Pattern} {bound : Bindings} {input : List UInt8}
    {fault : Fault} (h : takeAll bound input patterns = .error fault) :
    fault.isUndefined = false := by
  induction patterns generalizing bound input with
  | nil => cases h
  | cons q qs ih =>
    rw [takeAll] at h
    split at h
    · rename_i htake
      obtain rfl := Except.error.inj h
      exact Pattern.isUndefined_of_take htake
    · cases h
    · exact ih h

lemma AccUpdate.isUndefined_of_apply {update : AccUpdate} {bound : Bindings}
    {saved : Option (List Value)} {acc : List Value} {fault : Fault}
    (h : update.apply bound saved acc = .error fault) : fault.isUndefined = false := by
  unfold apply at h
  repeat' split at h
  all_goals cases h <;> rfl

namespace Procedure
variable {d : Procedure} {s t : State} {bound : Bindings} {rest : List UInt8}
  {saved : Option (List Value)} {stack : List (List Value)}

/-- What a procedure hands over to is settled by whether it matches. -/
lemma next_cases (h : d.turn s = .next t) : (d.Accepts s ∧ d.body.target? = some t.current) ∨
    (¬ d.Accepts s ∧ d.fallback = some t.current ∧ t = { s with current := t.current }) := by
  by_cases haccepts : d.Accepts s
  · obtain ⟨bound, rest, saved, stack, hm⟩ := haccepts
    obtain ⟨target, update, frames, move, acc, position, hbody, -, -, rfl⟩ :=
      perform_eq_next (hm.turn_eq ▸ h)
    exact .inl ⟨⟨bound, rest, saved, stack, hm⟩, by rw [hbody]; rfl⟩
  · rcases d.turn_cases s with ⟨fault, hfault⟩ | hrefuse | hmatch
    · simp [hfault] at h
    · exact .inr ⟨haccepts, refuse_eq_next (hrefuse ▸ h)⟩
    · exact absurd hmatch haccepts

lemma isUndefined_of_refuse {fault : Fault} (h : d.refuse s = .fault fault) :
    fault.isUndefined = false := by
  unfold refuse at h
  split at h <;> cases h
  rfl

lemma isUndefined_of_perform {fault : Fault}
    (h : d.body.perform s bound saved stack rest = .fault fault) : fault.isUndefined = false := by
  cases hbody : d.body with
  | ok => simp [hbody, Body.perform] at h
  | error reason => simp [hbody, Body.perform] at h
  | invoke target update frames move =>
    simp only [hbody, Body.perform] at h
    split at h
    · rename_i hacc
      obtain rfl := Turn.fault.inj h
      exact AccUpdate.isUndefined_of_apply hacc
    · split at h <;> cases h
      rfl

/-- Once a procedure is entered, no name is missing in its turn. -/
lemma isUndefined_of_turn {fault : Fault} (h : d.turn s = .fault fault) :
    fault.isUndefined = false := by
  unfold turn at h
  split at h
  · rename_i htake
    obtain rfl := Turn.fault.inj h
    exact isUndefined_of_takeAll htake
  · exact isUndefined_of_refuse h
  · split at h
    · split at h
      · exact isUndefined_of_refuse h
      · exact isUndefined_of_perform h
    · exact isUndefined_of_refuse h

end Procedure

namespace Program

/-- The procedure at a place, and it alone, carries the name. -/
structure Denotes (p : Program) (name : Name) (i : Nat) (d : Procedure) : Prop where
  stands : p.procedures[i]? = some d
  name_eq : d.name = name
  only : ∀ (j : Nat) (e : Procedure), p.procedures[j]? = some e → e.name = name → j = i

/-- A procedure that matches calls one that stands behind it. -/
def CallsAhead (p : Program) (s t : State) : Prop :=
  ∃ i j d e, p.Denotes s.current i d ∧ p.Denotes t.current j e ∧ d.Accepts s ∧
    d.body.target? = some t.current ∧ t.current.isCatchAll = false ∧ i < j

/-- A procedure that does not match leaves what it was given to a catch-all that it alone has. -/
def FallsToOwn (p : Program) (s t : State) : Prop :=
  ∃ i j d e, p.Denotes s.current i d ∧ p.Denotes t.current j e ∧ ¬ d.Accepts s ∧
    d.fallback = some t.current ∧ t.current.isCatchAll = true ∧
    t = { s with current := t.current } ∧
    ∀ (k : Nat) (f : Procedure), p.procedures[k]? = some f → f.fallback = some t.current → k = i

namespace Denotes
variable {p : Program} {name : Name} {i : Nat} {d : Procedure}

lemma mem (h : p.Denotes name i d) : d ∈ p.procedures := List.mem_of_getElem? h.stands

/-- The first procedure of the name is the one that carries it. -/
lemma get?_eq (h : p.Denotes name i d) : p.get? name = some d := by
  cases hget : p.get? name with
  | none =>
    have hnot := List.find?_eq_none.mp hget d h.mem
    simp [h.name_eq] at hnot
  | some e =>
    obtain ⟨j, hj⟩ := List.mem_iff_getElem?.mp (List.mem_of_find?_eq_some hget)
    have hname : e.name = name := by simpa using List.find?_some hget
    rw [h.only j e hj hname, h.stands] at hj
    exact hj.symm

end Denotes

namespace ForwardChain
variable {p : Program} (h : p.ForwardChain)
include h

lemma exists_denotes {name : Name} (hname : name ∈ p.names) : ∃ i d, p.Denotes name i d := by
  obtain ⟨i, hi⟩ := List.mem_iff_getElem?.mp hname
  obtain ⟨d, hd, hdname⟩ := names_getElem?.mp hi
  exact ⟨i, d, hd, hdname, fun j e he hename =>
    h.names_unique j i e d he hd (hename.trans hdname.symm)⟩

/-- The last procedure of a name is the one that carries it. -/
lemma resolve?_eq {name : Name} {i : Nat} {d : Procedure} (hd : p.Denotes name i d) :
    p.resolve? name = some d :=
  hd.name_eq ▸ resolve?_of_mem h.flawless.names_nodup hd.mem

lemma turn_eq {s : State} {i : Nat} {d : Procedure} (hd : p.Denotes s.current i d) :
    p.turn s = d.turn s := by
  rw [turn, h.resolve?_eq hd]

/-- One turn goes ahead by a call or goes to a catch-all of its own. -/
theorem transfer_of_turn {s t : State} (hs : s.current ∈ p.names) (hturn : p.turn s = .next t) :
    p.CallsAhead s t ∨ p.FallsToOwn s t := by
  obtain ⟨i, d, hd⟩ := h.exists_denotes hs
  have ht := (h.flawless.advances_of_turn hturn).1
  obtain ⟨j, e, he⟩ := h.exists_denotes ht
  rw [h.turn_eq hd] at hturn
  rcases Procedure.next_cases hturn with ⟨haccepts, htarget⟩ | ⟨hrefuses, hfall, hstate⟩
  · left
    obtain ⟨update, frames, move, hbody⟩ := Body.target?_eq_some.mp htarget
    obtain ⟨hlink, k, f, hik, hf, hname⟩ :=
      h.calls_forward i d t.current update frames move hd.stands hbody
    exact ⟨i, j, d, e, hd, he, haccepts, htarget, hlink, he.only k f hf hname ▸ hik⟩
  · right
    -- A single procedure falls back to what is entered, so it is the one that just did.
    obtain ⟨hcatch, -⟩ := h.falls_back d hd.mem t.current hfall
    obtain ⟨k, -, hunique⟩ := h.one_owner e he.mem (he.name_eq ▸ hcatch)
    rw [he.name_eq] at hunique
    have hk : i = k := hunique i ⟨d, hd.stands, hfall⟩
    exact ⟨i, j, d, e, hd, he, hrefuses, hfall, hcatch, hstate,
      fun l f hf hffall => (hunique l ⟨f, hf, hffall⟩).trans hk.symm⟩

lemma isUndefined_of_turn {s : State} (hs : s.current ∈ p.names) {fault : Fault}
    (hturn : p.turn s = .fault fault) : fault.isUndefined = false := by
  obtain ⟨i, d, hd⟩ := h.exists_denotes hs
  exact Procedure.isUndefined_of_turn (h.turn_eq hd ▸ hturn)

end ForwardChain

/-- Wherever a run of a checked program has come to, exactly one procedure carries the name that it
enters, and the first and the last of that name are this one. From there it calls ahead, or falls
back to a catch-all of its own. A catch-all is entered first of all or from its owner. -/
theorem verified_run_resolves {p : Program} (h : p.verify = .ok ()) (input : List UInt8) :
    (∀ visits s, p.Walk (p.initial input) visits s →
      (∃ i d, p.Denotes s.current i d ∧ p.resolve? s.current = some d ∧
        p.get? s.current = some d ∧ p.turn s = d.turn s) ∧
      (∀ t, p.turn s = .next t → p.CallsAhead s t ∨ p.FallsToOwn s t) ∧
      (s.current.isCatchAll = true → (visits = [] ∧ s.current = p.entry.target) ∨
        ∃ before r, visits = before ++ [r.visit] ∧ p.Walk (p.initial input) before r ∧
          p.turn r = .next s ∧ p.FallsToOwn r s)) ∧
    ∀ fuel, (∀ v ∈ (p.run fuel input).visits, ∃ i d, p.Denotes v.name i d) ∧
      ∀ name, (p.run fuel input).ending ≠ .fault (.undefinedProcedure name) := by
  have hchain : p.ForwardChain := (flawless_of_verify h).forwardChain
  have hflawless := flawless_of_verify h
  have hnames {visits : List Visit} {s : State} (hwalk : p.Walk (p.initial input) visits s) :
      s.current ∈ p.names := (hflawless.advances_of_walk hwalk hflawless.entry_mem).1
  refine ⟨fun visits s hwalk => ⟨?_, ?_, ?_⟩, fun fuel => ⟨?_, ?_⟩⟩
  · obtain ⟨i, d, hd⟩ := hchain.exists_denotes (hnames hwalk)
    exact ⟨i, d, hd, hchain.resolve?_eq hd, hd.get?_eq, hchain.turn_eq hd⟩
  · exact fun t hturn => hchain.transfer_of_turn (hnames hwalk) hturn
  · intro hcatch
    rcases hwalk.eq_or_last with ⟨rfl, rfl⟩ | ⟨before, r, rfl, hbefore, hturn⟩
    · exact .inl ⟨rfl, rfl⟩
    · refine .inr ⟨before, r, rfl, hbefore, hturn, ?_⟩
      rcases hchain.transfer_of_turn (hnames hbefore) hturn with hcall | hfall
      · obtain ⟨-, -, -, -, -, -, -, -, hlink, -⟩ := hcall
        simp [hcatch] at hlink
      · exact hfall
  · intro v hv
    obtain ⟨visits, s, hwalk, rfl⟩ := exists_walk_of_mem_visits hv
    exact hchain.exists_denotes (hnames hwalk)
  · intro name hfault
    obtain ⟨visits, s, hwalk, hturn⟩ := exists_walk_of_fault hfault
    cases hchain.isUndefined_of_turn (hnames hwalk) hturn

/-- Asking again enters the same catch-all over and over, each time from the link that owns it. -/
theorem verified_run_resolves_insisting : insisting.verify = .ok () ∧ ∃ visits s,
    insisting.Walk (insisting.initial [98]) visits s ∧
      visits.map (·.name) =
        [.link "p" 0, .link "p" 1, (Name.link "p" 1).catchAll, .link "p" 1] ∧
      s.current = (Name.link "p" 1).catchAll ∧ (∃ i d, insisting.Denotes s.current i d) ∧
      ∃ before r, visits = before ++ [r.visit] ∧ insisting.FallsToOwn r s := by
  let asked : State := ⟨.link "p" 1, [98], [], [], ⟨1, 1⟩⟩
  let refused : State := ⟨(Name.link "p" 1).catchAll, [98], [], [], ⟨1, 1⟩⟩
  have hfirst : insisting.turn (insisting.initial [98]) = .next asked := by decide +kernel
  have hrefuse : insisting.turn asked = .next refused := by decide +kernel
  have hagain : insisting.turn refused = .next asked := by decide +kernel
  have hwalk : insisting.Walk (insisting.initial [98])
      [(insisting.initial [98]).visit, asked.visit, refused.visit, asked.visit] refused :=
    .turn hfirst (.turn hrefuse (.turn hagain (.one hrefuse)))
  obtain ⟨⟨i, d, hd, -⟩, -, hentered⟩ :=
    (verified_run_resolves verify_insisting [98]).1 _ _ hwalk
  refine ⟨verify_insisting, _, _, hwalk, rfl, rfl, ⟨i, d, hd⟩, ?_⟩
  rcases hentered rfl with ⟨hnone, -⟩ | ⟨before, r, hvisits, -, -, hfall⟩
  · cases hnone
  · exact ⟨before, r, hvisits, hfall⟩

end Program
end ParserChain
