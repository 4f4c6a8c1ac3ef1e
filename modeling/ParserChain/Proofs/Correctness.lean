import ParserChain.Proofs.Simulation

/-! Compiled programs against the reader of the tree. A run succeeds exactly where the reader does
and with what it reads; where the reader fails, the run gives back the input as it was in front of
the failing segment. Whatever the input, a run ends, and nothing but a counter can stop it. -/
namespace ParserChain

variable {config : Config} {name : String} {steps : List Combinator} {p : Program}

open Combinator in
/-- A run succeeds exactly when the reader of the tree does, and with the same values, remainder,
line and column, for as long as the reader's positions fit their counters. -/
theorem run_ok_iff_parseAll (hp : config.compile name steps = .ok p)
    (meaning : Transform Term → List Value → List Value)
    (hmeaning : ∀ f ∈ rewritesAll steps, f.ActsLike (meaning f)) (input : List UInt8)
    (hfits : parseAll meaning steps ⟨input, config.start, 0⟩ ≠ .overflow) {fuel : Nat}
    (hfuel : p.procedures.length ≤ fuel) (values : List Value) (rest : List UInt8)
    (position : Position) :
    (p.run fuel input).ending = .done (.ok values rest position) ↔
      ∃ index, parseAll meaning steps ⟨input, config.start, 0⟩ =
        .read values ⟨rest, position, index⟩ := by
  obtain ⟨links, hl, rfl⟩ := expands_of_compile hp
  have hgiven : ∀ f ∈ rewritesAll steps, f.EmitsGiven := fun f hf => (hmeaning f hf).emitsGiven
  have hstart : Cursor.Meets ⟨input, config.start, 0⟩ ⟨input, config.start, 0⟩ := ⟨rfl, rfl⟩
  rw [parseAll_eq_scan, ← hl.leavesAll_eq] at hfits ⊢
  cases hscan : scan (Link.leavesAll links) ⟨input, config.start, 0⟩ with
  | overflow => exact absurd (by rw [hscan]; rfl) hfits
  | failed place =>
    obtain ⟨i, l, vs, mid, stop, hlink, -, -, -, hstop, -, -⟩ :=
      Link.readAll_of_scan_failed hstart hscan
    obtain ⟨run, -, hending, -⟩ := hl.run_of_failed hgiven name config.start input hfuel hstop
    rw [hending]
    simp [Reading.map]
  | read vs next =>
    obtain ⟨behind, hread, hmeets⟩ := Link.readAll_of_scan_read hstart hscan
    obtain ⟨outputs, heval, hending, -⟩ := hl.run_of_read hgiven name config.start input hfuel hread
    rw [hending, heval meaning hmeaning, hmeets.rest, hmeets.position]
    simp only [Reading.map, Ending.done.injEq, Outcome.ok.injEq, Reading.read.injEq]
    constructor
    · rintro ⟨rfl, rfl, rfl⟩
      exact ⟨next.index, rfl, rfl⟩
    · rintro ⟨index, rfl, rfl⟩
      exact ⟨rfl, rfl, rfl⟩

open Combinator in
theorem run_ok_sample :
    ((Program.ofLinks "p" ⟨1, 1⟩
      (sampleLinks ⟨"wrap", fun ts => [.list ts]⟩)).run 9
        [97, 1, 2, 3, 4]).ending =
      .done (.ok [.str "a", .int 2, .int 1, .list [.int 3]] [4] ⟨1, 5⟩) := by
  have hread : parseAll (fun _ vs => [.list vs])
      (sample ⟨"wrap", fun ts => [.list ts]⟩)
      ⟨[97, 1, 2, 3, 4], ⟨1, 1⟩, 0⟩ =
      .read [.str "a", .int 2, .int 1, .list [.int 3]] ⟨[4], ⟨1, 5⟩, 4⟩ := by decide +kernel
  have hwrap : Transform.ActsLike ⟨"wrap", fun ts => [.list ts]⟩ fun vs => [.list vs] := by
    intro bound _ ts vs h
    simp [Term.resolveAll, Term.resolve, h]
  have hp := (expands_sample ⟨"wrap", fun ts => [.list ts]⟩).compile_eq
    (by simp [sample]) {} "p"
  exact (run_ok_iff_parseAll hp (fun _ vs => [.list vs])
    (by simpa [sample, rewritesAll, rewrites, byte] using hwrap) [97, 1, 2, 3, 4]
    (by rw [hread]; simp) (by decide) _ _ _).mpr ⟨4, hread⟩

open Combinator in
/-- Where the reader of the tree fails, one link of the program matches the segment that holds the
failing leaf. The run fails with what that segment expects, and gives back the input and the
position in front of it. -/
theorem run_error_of_parseAll_failed (hp : config.compile name steps = .ok p)
    (hgiven : ∀ f ∈ rewritesAll steps, f.EmitsGiven)
    (meaning : Transform Term → List Value → List Value) (input : List UInt8) {place : Cursor}
    (hfailed : parseAll meaning steps ⟨input, config.start, 0⟩ = .failed place) {fuel : Nat}
    (hfuel : p.procedures.length ≤ fuel) :
    ∃ (links : List Link) (i : Nat) (run : List Combinator) (values : List Value)
      (front : Cursor),
      Expands steps links ∧ p = Program.ofLinks name config.start links ∧
      Link.leavesAll links = leavesAll steps ∧ links[i]? = some (.bound run) ∧
      p.links[i]? = some ((Segment.fuse 0 run).link name i) ∧
      scan (Link.leavesAll (links.take i)) ⟨input, config.start, 0⟩ = .read values front ∧
      front.index ≤ place.index ∧ place.index < front.index + (leavesAll run).length ∧
      (p.run fuel input).ending = .done (.error (expected run) front.rest front.position) := by
  obtain ⟨links, hl, rfl⟩ := expands_of_compile hp
  have hstart : Cursor.Meets ⟨input, config.start, 0⟩ ⟨input, config.start, 0⟩ := ⟨rfl, rfl⟩
  rw [parseAll_eq_scan, Reading.map_eq_failed, ← hl.leavesAll_eq] at hfailed
  obtain ⟨i, l, values, front, stop, hlink, hfront, hle, hlt, hstop, hmeets, hindex⟩ :=
    Link.readAll_of_scan_failed hstart hfailed
  obtain ⟨run, hrun, hending, -⟩ := hl.run_of_failed hgiven name config.start input hfuel hstop
  rw [Nat.zero_add] at hindex
  rw [hindex] at hrun
  obtain rfl : l = .bound run := Option.some.inj (hlink.symm.trans hrun)
  rw [hmeets.rest, hmeets.position] at hending
  refine ⟨links, i, run, values, front, hl, rfl, hl.leavesAll_eq, hrun, ?_, hfront, hle, hlt,
    hending⟩
  have hi := (List.getElem?_eq_some_iff.mp hrun).1
  rw [Program.links_ofLinks, List.getElem?_append_left (by simpa using hi),
    Link.procedures_getElem?, hrun, Nat.zero_add]
  rfl

open Combinator in
/-- The second of two transformed bytes is missing. -/
theorem run_error_sample : ∃ (run : List Combinator) (front : Cursor),
    front.index ≤ 2 ∧ 2 < front.index + (leavesAll run).length ∧
      ((Program.ofLinks "p" ⟨1, 1⟩ (sampleLinks ⟨"same", id⟩)).run 9
        [97, 1]).ending = .done (.error (expected run) front.rest front.position) := by
  have hfailed : parseAll (fun _ vs => vs) (sample ⟨"same", id⟩)
      ⟨[97, 1], ⟨1, 1⟩, 0⟩ = .failed ⟨[], ⟨1, 3⟩, 2⟩ := by decide +kernel
  have hp := (expands_sample ⟨"same", id⟩).compile_eq
    (by simp [sample]) {} "p"
  have hfuel : (Program.ofLinks "p" ⟨1, 1⟩
      (sampleLinks ⟨"same", id⟩)).procedures.length ≤ 9 := by decide
  obtain ⟨-, -, run, -, front, -, -, -, -, -, -, hle, hlt, hending⟩ :=
    run_error_of_parseAll_failed hp
      (by simp [sample, rewritesAll, rewrites, byte, Transform.EmitsGiven])
      (fun _ vs => vs) [97, 1] hfailed hfuel
  exact ⟨run, front, hle, hlt, hending⟩

/-- Every run of a compiled program ends. Only the range of the counters can cut it short; a run
that is not visits the links in order, each once, up to the success or up to a link that fails,
whose catch-all comes last. -/
theorem run_ends (hp : config.compile name steps = .ok p)
    (hgiven : ∀ f ∈ Combinator.rewritesAll steps, f.EmitsGiven) (input : List UInt8) {fuel : Nat}
    (hfuel : p.procedures.length ≤ fuel) :
    (p.run fuel input).ending ≠ .outOfFuel ∧
      (∀ fault, (p.run fuel input).ending = .fault fault → fault = .counterOverflow) ∧
      ∀ outcome, (p.run fuel input).ending = .done outcome →
        ∃ k, (outcome.isOk = true ∧ p.procedures.getLast? = some (successLink name k) ∧
            (p.run fuel input).visits.map (·.name) = Name.links name (k + 1)) ∨
          (outcome.isOk = false ∧ (p.run fuel input).visits.map (·.name) =
            Name.links name (k + 1) ++ [(Name.link name k).catchAll]) := by
  obtain ⟨links, hl, rfl⟩ := expands_of_compile hp
  cases hread : Link.readAll links ⟨input, config.start, 0⟩ with
  | overflow =>
    have hending := hl.run_of_overflow hgiven name config.start input hfuel hread
    rw [hending]
    exact ⟨by simp, fun fault h => (Ending.fault.inj h).symm, by simp⟩
  | failed place =>
    obtain ⟨run, -, hending, hvisits⟩ :=
      hl.run_of_failed hgiven name config.start input hfuel hread
    rw [hending, hvisits]
    refine ⟨by simp, by simp, fun outcome h => ⟨place.index, .inr ⟨?_, rfl⟩⟩⟩
    rw [← Ending.done.inj h]
    rfl
  | read vs next =>
    obtain ⟨values, -, hending, hvisits⟩ :=
      hl.run_of_read hgiven name config.start input hfuel hread
    rw [hending, hvisits]
    refine ⟨by simp, by simp, fun outcome h => ⟨links.length, .inl ⟨?_, ?_, rfl⟩⟩⟩
    · rw [← Ending.done.inj h]
      rfl
    · simp [Program.ofLinks]

open Combinator in
theorem run_ends_sample :
    ((Program.ofLinks "p" ⟨1, 1⟩ (sampleLinks ⟨"same", id⟩)).run 9
      [97, 1]).ending ≠ .outOfFuel := by
  have hp := (expands_sample ⟨"same", id⟩).compile_eq
    (by simp [sample]) {} "p"
  exact (run_ends hp (by simp [sample, rewritesAll, rewrites, byte, Transform.EmitsGiven])
    [97, 1] (by decide)).1

end ParserChain
