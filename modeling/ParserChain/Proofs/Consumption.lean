import ParserChain.Proofs.Flatten
import ParserChain.Proofs.Transfer

/-! What a success has read. Patterns, turns and whole runs that succeed look at no byte behind
those that they consume, so the same bytes are read in front of any others. No input that a run
consumes is then the beginning of another. -/
namespace ParserChain

/-- A unit is decoded from its own bytes, whatever stands behind them. -/
lemma Shape.exists_of_decode {s : Shape} {input : List UInt8} {value : Int} {width : Nat}
    (h : s.decode input = .ok (some (value, width))) : ∃ unit rest, input = unit ++ rest ∧
      unit.length = width ∧ ∀ tail, s.decode (unit ++ tail) = .ok (some (value, width)) := by
  unfold decode at h
  split at h
  · rename_i hutf8
    cases hread : Utf8.read? input with
    | none => simp [hread] at h
    | some c =>
      obtain ⟨rfl, rfl⟩ : (c.toNat : Int) = value ∧ c.utf8Size = width := by simpa [hread] using h
      obtain ⟨rest, rfl⟩ := Utf8.read?_eq_some.mp hread
      exact ⟨Utf8.encode c, rest, rfl, by simp, fun tail => by simp [decode, hutf8]⟩
  · rename_i hfixed
    split at h
    · simp at h
    · rename_i hlen
      have hunit : (input.take s.width).length = s.width := List.length_take_of_le (by omega)
      cases hvalue : s.fixedValue (input.take s.width) with
      | error fault => simp [hvalue, Except.map] at h
      | ok n =>
        obtain ⟨rfl, rfl⟩ : n = value ∧ s.width = width := by simpa [hvalue, Except.map] using h
        refine ⟨input.take s.width, input.drop s.width, by simp, hunit, fun tail => ?_⟩
        have htake : (input.take s.width ++ tail).take s.width = input.take s.width :=
          List.take_left' hunit
        have hshort : ¬(input.take s.width ++ tail).length < s.width := by
          rw [List.length_append, hunit]
          omega
        simp only [decode, hfixed, hshort, htake, hvalue]
        rfl

/-- A pattern takes the same bytes, in the same way, in front of any others. -/
lemma Pattern.exists_of_take {q : Pattern} {input rest : List UInt8} {bound : Bindings}
    (h : q.take input = .ok (some (bound, rest))) : ∃ taken, input = taken ++ rest ∧
      ∀ tail, q.take (taken ++ tail) = .ok (some (bound, tail)) := by
  cases q with
  | literal text =>
    obtain ⟨behind, hbegins, rfl, rfl⟩ : ∃ behind, (Utf8.bytes text).isPrefixOf? input =
        some behind ∧ [] = bound ∧ behind = rest := by simpa [take] using h
    refine ⟨Utf8.bytes text, (List.append_eq_of_isPrefixOf?_eq_some hbegins).symm, fun tail => ?_⟩
    have htail : (Utf8.bytes text).isPrefixOf? (Utf8.bytes text ++ tail) = some tail :=
      List.isPrefixOf?_eq_some_iff_append_eq.mpr rfl
    simp [take, htail]
  | capture var shape =>
    cases hdecode : shape.decode input with
    | error fault => simp [take, hdecode, Except.map] at h
    | ok unit =>
      cases unit with
      | none => simp [take, hdecode, Except.map] at h
      | some unit =>
        obtain ⟨value, width⟩ := unit
        obtain ⟨rfl, rfl⟩ : [(var, value)] = bound ∧ input.drop width = rest := by
          simpa [take, hdecode, Except.map] using h
        obtain ⟨unit, rest, rfl, rfl, hunit⟩ := Shape.exists_of_decode hdecode
        exact ⟨unit, by simp, fun tail => by simp [take, hunit, Except.map]⟩

/-- So do patterns in a row. -/
theorem exists_of_takeAll {patterns : List Pattern} {first bound : Bindings}
    {input rest : List UInt8} (h : takeAll first input patterns = .ok (some (bound, rest))) :
    ∃ taken, input = taken ++ rest ∧
      ∀ tail, takeAll first (taken ++ tail) patterns = .ok (some (bound, tail)) := by
  induction patterns generalizing first input with
  | nil =>
    obtain ⟨rfl, rfl⟩ : first = bound ∧ input = rest := by simpa [takeAll] using h
    exact ⟨[], rfl, fun tail => rfl⟩
  | cons q qs ih =>
    rw [takeAll] at h
    cases hq : q.take input with
    | error fault => simp [hq] at h
    | ok result =>
      cases result with
      | none => simp [hq] at h
      | some result =>
        obtain ⟨new, behind⟩ := result
        rw [hq] at h
        obtain ⟨taken, rfl, htake⟩ := Pattern.exists_of_take hq
        obtain ⟨taken', rfl, htake'⟩ := ih h
        refine ⟨taken ++ taken', by simp, fun tail => ?_⟩
        rw [takeAll, List.append_assoc, htake]
        exact htake' tail

/-- The state with other input. -/
def State.reading (s : State) (input : List UInt8) : State := { s with rest := input }

@[simp] lemma State.visit_reading (s : State) (input : List UInt8) :
    (s.reading input).visit = s.visit := rfl

namespace Procedure
variable {d : Procedure} {s : State} {bound : Bindings} {rest : List UInt8}
  {saved : Option (List Value)} {stack : List (List Value)}

/-- A procedure that matches does so in front of any other bytes. -/
theorem Matches.exists_reading (h : d.Matches s bound rest saved stack) : ∃ taken,
    s.rest = taken ++ rest ∧
      ∀ tail, d.Matches (s.reading (taken ++ tail)) bound tail saved stack := by
  obtain ⟨taken, hrest, htake⟩ := exists_of_takeAll h.input
  exact ⟨taken, hrest, fun tail => ⟨htake tail, h.guard, h.stack⟩⟩

end Procedure

namespace Program.IsChain
variable {p : Program} {last : Nat} (h : p.IsChain last)
include h

/-- A procedure that the run enters is entered with any other input too. -/
lemma turn_reading {s : State} {d : Procedure} (hd : d ∈ p.procedures) (hname : d.name = s.current)
    (input : List UInt8) : p.turn (s.reading input) = d.turn (s.reading input) :=
  turn_of_mem h.names_nodup hd hname.symm

/-- A turn that succeeds does so in front of any other bytes than those that it leaves. -/
theorem exists_reading_of_halt {s : State} {values : List Value} {rest : List UInt8}
    {position : Position} (hturn : p.turn s = .halt (.ok values rest position)) : ∃ taken,
      s.rest = taken ++ rest ∧
        ∀ tail, p.turn (s.reading (taken ++ tail)) = .halt (.ok values tail position) := by
  rcases p.turn_cases s with hfault | ⟨d, hd, hname, heq⟩
  · simp [hfault] at hturn
  · obtain ⟨hbody, rfl, rfl, bound, saved, stack, hmatch⟩ :=
      Procedure.matches_of_turn_ok (heq ▸ hturn)
    obtain ⟨taken, hrest, hreading⟩ := hmatch.exists_reading
    refine ⟨taken, hrest, fun tail => ?_⟩
    rw [h.turn_reading hd hname, (hreading tail).turn_eq, hbody]
    rfl

/-- A turn that hands over does so in front of any other bytes than those that it leaves, or else
the run fails in the next turn. -/
theorem exists_reading_of_next {s t : State} (hturn : p.turn s = .next t) :
    (∃ reason, p.turn t = .halt (.error reason t.rest t.position)) ∨ ∃ taken,
      s.rest = taken ++ t.rest ∧
        ∀ tail, p.turn (s.reading (taken ++ tail)) = .next (t.reading tail) := by
  obtain ⟨d, hd, hname, hover⟩ := exists_handsOver hturn
  cases hover with
  | refused hfall => exact .inl (h.turn_fallback hd hfall)
  | matched hmatch hbody hacc hmove =>
    obtain ⟨taken, hrest, hreading⟩ := hmatch.exists_reading
    refine .inr ⟨taken, hrest, fun tail => ?_⟩
    rw [h.turn_reading hd hname, (hreading tail).turn_eq]
    simp [hbody, Body.perform, hacc, hmove, State.reading]

/-- A run that succeeds makes the same visits, and succeeds with the same values, in front of any
other bytes than those that it leaves. -/
theorem exists_reading_of_ok {fuel : Nat} {s : State} {values : List Value} {rest : List UInt8}
    {position : Position} (hrun : (p.runFrom fuel s).ending = .done (.ok values rest position)) :
    ∃ taken, s.rest = taken ++ rest ∧ ∀ tail, p.runFrom fuel (s.reading (taken ++ tail)) =
      ⟨.done (.ok values tail position), (p.runFrom fuel s).visits⟩ := by
  induction fuel generalizing s with
  | zero => simp [runFrom] at hrun
  | succ fuel ih =>
    cases hturn : p.turn s with
    | fault fault => simp [endingFrom, hturn] at hrun
    | halt outcome =>
      obtain rfl : outcome = .ok values rest position := by simpa [endingFrom, hturn] using hrun
      obtain ⟨taken, hrest, hreading⟩ := h.exists_reading_of_halt hturn
      exact ⟨taken, hrest, fun tail => by simp [runFrom, hreading, hturn]⟩
    | next t =>
      have htail : (p.runFrom fuel t).ending = .done (.ok values rest position) := by
        simpa [endingFrom, hturn] using hrun
      rcases h.exists_reading_of_next hturn with ⟨reason, herror⟩ | ⟨taken, hrest, hreading⟩
      · cases fuel <;> simp [endingFrom, herror] at htail
      · obtain ⟨taken', ht, hrun'⟩ := ih htail
        refine ⟨taken ++ taken', by rw [hrest, ht, List.append_assoc], fun tail => ?_⟩
        rw [List.append_assoc]
        simp [-ending_runFrom, runFrom, hreading, hturn, hrun', Run.after]

end Program.IsChain

namespace Program
variable {p : Program}

/-- Two runs on one input that both end are the same, whatever their fuel. -/
lemma run_eq_of_ended {fuel fuel' : Nat} {input : List UInt8}
    (h : (p.run fuel input).ending ≠ .outOfFuel) (h' : (p.run fuel' input).ending ≠ .outOfFuel) :
    p.run fuel input = p.run fuel' input := by
  rw [run, ← runFrom_add h fuel', Nat.add_comm, runFrom_add h' fuel]
  rfl

/-- The bytes are what a run that succeeds has read. -/
def Consumes (p : Program) (taken : List UInt8) : Prop :=
  ∃ fuel values rest position,
    (p.run fuel (taken ++ rest)).ending = .done (.ok values rest position)

namespace IsChain
variable {last : Nat} (h : p.IsChain last)
include h

theorem exists_run_of_ok {fuel : Nat} {input : List UInt8} {values : List Value}
    {rest : List UInt8} {position : Position}
    (hrun : (p.run fuel input).ending = .done (.ok values rest position)) : ∃ taken,
      input = taken ++ rest ∧ ∀ tail, p.run fuel (taken ++ tail) =
        ⟨.done (.ok values tail position), (p.run fuel input).visits⟩ :=
  h.exists_reading_of_ok hrun

/-- Of two inputs that are consumed neither begins with the other, unless they are the same. -/
theorem eq_of_consumes {front taken : List UInt8} (hfront : p.Consumes front)
    (htaken : p.Consumes taken) (hbegins : front <+: taken) : front = taken := by
  obtain ⟨behind, rfl⟩ := hbegins
  obtain ⟨fuel, values, rest, position, hrun⟩ := hfront
  obtain ⟨fuel', values', rest', position', hrun'⟩ := htaken
  obtain ⟨_, hinput, hreading⟩ := h.exists_run_of_ok hrun
  obtain ⟨_, hinput', hreading'⟩ := h.exists_run_of_ok hrun'
  obtain rfl := List.append_cancel_right hinput
  obtain rfl := List.append_cancel_right hinput'
  -- Both runs are on the longer input: one leaves what stands behind the other, one nothing.
  have hlong := hreading' []
  rw [List.append_nil] at hlong
  have hsame : p.run fuel (front ++ behind) = p.run fuel' (front ++ behind) :=
    run_eq_of_ended (by rw [hreading]; simp) (by rw [hlong]; simp)
  have hrest : behind = [] := by
    rw [hreading, hlong] at hsame
    exact (Outcome.ok.inj (Ending.done.inj (Run.mk.inj hsame).1)).2.1
  rw [hrest, List.append_nil]

/-- A run that succeeds does not do so on a proper beginning of what is consumed. -/
theorem eq_of_ok_of_prefix {front taken : List UInt8} (htaken : p.Consumes taken)
    (hbegins : front <+: taken) {fuel : Nat} {values : List Value} {rest : List UInt8}
    {position : Position} (hrun : (p.run fuel front).ending = .done (.ok values rest position)) :
    front = taken := by
  obtain ⟨read, rfl, -⟩ := h.exists_run_of_ok hrun
  have hread := h.eq_of_consumes ⟨fuel, values, rest, position, hrun⟩ htaken
    ((List.prefix_append read rest).trans hbegins)
  exact hbegins.eq_of_length_le (by simp [hread])

end IsChain
end Program

/-- A compiled program that succeeds has read some bytes of the input, and leaves the rest. In front
of any other rest the same bytes give the same run. No proper beginning of them gives a success, and
so no input that the program consumes is a proper beginning of another. -/
theorem success_reads_only_what_it_consumes {config : Config} {name : String}
    {steps : List Combinator} {p : Program} (hp : config.compile name steps = .ok p) :
    (∀ (fuel : Nat) (input : List UInt8) (values : List Value) (rest : List UInt8)
      (position : Position), (p.run fuel input).ending = .done (.ok values rest position) →
      ∃ taken, input = taken ++ rest ∧
        (∀ tail, p.run fuel (taken ++ tail) =
          ⟨.done (.ok values tail position), (p.run fuel input).visits⟩) ∧
        ∀ front : List UInt8, front <+: taken → front ≠ taken →
          ∀ (fuel' : Nat) (values' : List Value) (rest' : List UInt8) (position' : Position),
            (p.run fuel' front).ending ≠ .done (.ok values' rest' position')) ∧
    ∀ front taken : List UInt8, p.Consumes front → p.Consumes taken → front <+: taken →
      front = taken := by
  obtain ⟨links, -, rfl⟩ := expands_of_compile hp
  have hchain := Program.isChain_ofLinks name config.start links
  refine ⟨?_, fun front taken hfront htaken => hchain.eq_of_consumes hfront htaken⟩
  intro fuel input values rest position hrun
  obtain ⟨taken, rfl, hreading⟩ := hchain.exists_run_of_ok hrun
  refine ⟨taken, rfl, hreading, ?_⟩
  intro front hbegins hne fuel' values' rest' position' hfront
  exact hne (hchain.eq_of_ok_of_prefix ⟨fuel, values, rest, position, hrun⟩ hbegins hfront)

namespace Combinator

/-- A character of any length, and a text in a traverse. -/
def accented : List Combinator :=
  [.byteRange [] [.utf8], .traverse [.literal "b"] ⟨"reverse", List.reverse⟩]

lemma expands_accented : Expands accented [.bound [.byteRange [] [.utf8]], .enter,
    .bound [.literal "b"], .exit ⟨"reverse", List.reverse⟩] := by
  have hinner : Expands [.literal "b"] [.bound [.literal "b"]] := .of_run (by simp) rfl
  exact .bound (List.cons_ne_nil (.byteRange [] [.utf8]) []) rfl (by simp [hasTraverse])
    (hinner.traverse .nil)

theorem success_reads_only_what_it_consumes_accented : ∃ p,
    Config.compile {} "p" accented = .ok p ∧
      (p.run 5 [195, 169, 98, 195]).ending =
        .done (.ok [.int 233, .str "b"] [195] ⟨1, 3⟩) ∧
      ∃ taken, [195, 169, 98, 195] = taken ++ [195] ∧ ∀ tail,
        p.run 5 (taken ++ tail) = ⟨.done (.ok [.int 233, .str "b"] tail ⟨1, 3⟩),
          (p.run 5 [195, 169, 98, 195]).visits⟩ := by
  have hp := expands_accented.compile_eq (by simp [accented]) {} "p"
  have hrun : ((Program.ofLinks "p" ({} : Config).start [.bound [.byteRange [] [.utf8]], .enter,
      .bound [.literal "b"], .exit ⟨"reverse", List.reverse⟩]).run 5 [195, 169, 98, 195]).ending =
      .done (.ok [.int 233, .str "b"] [195] ⟨1, 3⟩) := by decide +kernel
  obtain ⟨taken, hinput, htail, -⟩ := (success_reads_only_what_it_consumes hp).1 _ _ _ _ _ hrun
  exact ⟨_, hp, hrun, taken, hinput, htail⟩

end Combinator
end ParserChain
