import ParserChain.Proofs.Link
import ParserChain.Proofs.Match

/-! A reader that goes from link to link. Where the leaf reader gets through the leaves of links,
it gets through the links; where the leaf reader stops within a link, it stops in front of it. -/
namespace ParserChain
namespace Link

/-- Reads all leaves of a link, or none of them. -/
def read (l : Link) (c : Cursor) : Reading (List Value) :=
  match Leaf.match? l.leaves c.rest with
  | none => .failed c
  | some (vs, rest) =>
    match (Movement.ofDeltas (l.leaves.map Leaf.delta)).move? c.position with
    | none => .overflow
    | some position => .read vs ⟨rest, position, c.index + 1⟩

/-- Reads links in a row, and yields the values of their leaves. -/
def readAll : List Link → Cursor → Reading (List Value)
  | [], c => .read [] c
  | l :: ls, c => (l.read c).andThen fun vs next => (readAll ls next).map (vs ++ ·)

def leavesAll (ls : List Link) : List Leaf := ls.flatMap leaves

@[simp] lemma leavesAll_cons (l : Link) (ls : List Link) :
    leavesAll (l :: ls) = l.leaves ++ leavesAll ls := rfl

@[simp] lemma leavesAll_append (ls ms : List Link) :
    leavesAll (ls ++ ms) = leavesAll ls ++ leavesAll ms := List.flatMap_append

lemma readAll_append (ls ms : List Link) (c : Cursor) :
    readAll (ls ++ ms) c =
      (readAll ls c).andThen fun vs next => (readAll ms next).map (vs ++ ·) := by
  induction ls generalizing c with
  | nil => simp [readAll, Reading.andThen]
  | cons l ls ih =>
    simp only [List.cons_append, readAll, ih, Reading.andThen_map, Reading.andThen_andThen,
      Reading.map_andThen, Reading.map_map, List.append_assoc]

/-- A link without leaves is read without a change of place. -/
lemma read_of_leaves_nil {l : Link} (h : l.leaves = []) (c : Cursor) :
    l.read c = .read [] ⟨c.rest, c.position, c.index + 1⟩ := by
  have hstill : (Movement.ofDeltas []).move? c.position = some c.position :=
    Movement.move?_still c.position
  simp [read, h, hstill]

lemma read_eq_read {l : Link} {c next : Cursor} {vs : List Value} (h : l.read c = .read vs next) :
    Leaf.match? l.leaves c.rest = some (vs, next.rest) ∧ next.index = c.index + 1 := by
  unfold read at h
  cases hm : Leaf.match? l.leaves c.rest with
  | none => simp [hm] at h
  | some taken =>
    cases hp : (Movement.ofDeltas (l.leaves.map Leaf.delta)).move? c.position with
    | none => simp [hm, hp] at h
    | some position =>
      obtain ⟨rfl, rfl⟩ : taken.1 = vs ∧ ⟨taken.2, position, c.index + 1⟩ = next := by
        simpa [hm, hp] using h
      exact ⟨rfl, rfl⟩

lemma read_eq_failed {l : Link} {c place : Cursor} (h : l.read c = .failed place) :
    c = place ∧ Leaf.match? l.leaves c.rest = none := by
  unfold read at h
  cases hm : Leaf.match? l.leaves c.rest with
  | none => exact ⟨by simpa [hm] using h, rfl⟩
  | some taken =>
    cases hp : (Movement.ofDeltas (l.leaves.map Leaf.delta)).move? c.position <;>
      simp [hm, hp] at h

lemma index_of_readAll {ls : List Link} {c next : Cursor} {vs : List Value}
    (h : readAll ls c = .read vs next) : next.index = c.index + ls.length := by
  induction ls generalizing c vs with
  | nil =>
    cases h
    rfl
  | cons l ls ih =>
    rw [readAll, Reading.andThen_eq_read] at h
    obtain ⟨ws, mid, hl, htail⟩ := h
    obtain ⟨xs, hxs, -⟩ := Reading.map_eq_read.mp htail
    rw [ih hxs, (read_eq_read hl).2, List.length_cons]
    omega

lemma length_of_readAll {ls : List Link} {c next : Cursor} {vs : List Value}
    (h : readAll ls c = .read vs next) : vs.length = (leavesAll ls).length := by
  induction ls generalizing c vs with
  | nil =>
    obtain ⟨rfl, -⟩ : [] = vs ∧ c = next := by simpa [readAll] using h
    rfl
  | cons l ls ih =>
    rw [readAll, Reading.andThen_eq_read] at h
    obtain ⟨ws, mid, hl, htail⟩ := h
    obtain ⟨xs, hxs, rfl⟩ := Reading.map_eq_read.mp htail
    have hws := Leaf.length_of_match? (read_eq_read hl).1
    rw [leavesAll_cons, List.length_append, List.length_append, hws, ih hxs]

/-- Only a link that matches a run can stop the reader. -/
lemma bound_of_readAll_failed {ls : List Link} {c place : Cursor}
    (h : readAll ls c = .failed place) : ∃ (i : Nat) (run : List Combinator),
      ls[i]? = some (bound run) ∧ (bound run).leaves ≠ [] ∧ place.index = c.index + i := by
  induction ls generalizing c with
  | nil => simp [readAll] at h
  | cons l ls ih =>
    rw [readAll, Reading.andThen_eq_failed] at h
    rcases h with hl | ⟨ws, mid, hl, htail⟩
    · obtain ⟨rfl, hmatch⟩ := read_eq_failed hl
      have hleaves : l.leaves ≠ [] := by
        intro hnil
        simp [hnil] at hmatch
      cases l with
      | bound run => exact ⟨0, run, rfl, hleaves, rfl⟩
      | enter => exact absurd rfl hleaves
      | exit f => exact absurd rfl hleaves
    · obtain ⟨i, run, hrun, hleaves, hindex⟩ := ih (Reading.map_eq_failed.mp htail)
      refine ⟨i + 1, run, hrun, hleaves, ?_⟩
      rw [hindex, (read_eq_read hl).2]
      omega

/-- Where the leaf reader gets through a link, the link is read. -/
lemma read_of_scan_read {l : Link} {c d next : Cursor} {vs : List Value} (hd : d.Meets c)
    (h : scan l.leaves c = .read vs next) :
    l.read d = .read vs ⟨next.rest, next.position, d.index + 1⟩ := by
  obtain ⟨hmatch, hmove⟩ := match?_of_scan_read h
  simp [read, hd.rest, hd.position, hmatch, hmove]

/-- Where the leaf reader gets through the leaves of links, the links are read. -/
theorem readAll_of_scan_read {ls : List Link} {c d next : Cursor} {vs : List Value}
    (hd : d.Meets c) (h : scan (leavesAll ls) c = .read vs next) :
    ∃ behind, readAll ls d = .read vs behind ∧ behind.Meets next := by
  induction ls generalizing c d vs with
  | nil =>
    obtain ⟨rfl, rfl⟩ : [] = vs ∧ c = next := by simpa [scan, leavesAll] using h
    exact ⟨d, rfl, hd⟩
  | cons l ls ih =>
    rw [leavesAll_cons, scan_append, Reading.andThen_eq_read] at h
    obtain ⟨ws, mid, hl, htail⟩ := h
    obtain ⟨xs, hxs, rfl⟩ := Reading.map_eq_read.mp htail
    have hread := read_of_scan_read hd hl
    obtain ⟨behind, hbehind, hmeets⟩ :=
      ih (c := mid) (d := ⟨mid.rest, mid.position, d.index + 1⟩) ⟨rfl, rfl⟩ hxs
    refine ⟨behind, ?_, hmeets⟩
    simp [readAll, hread, hbehind, Reading.andThen, Reading.map]

/-- Where the leaf reader stops, the link reader stops in front of the link that holds the leaf. -/
theorem readAll_of_scan_failed {ls : List Link} {c d place : Cursor} (hd : d.Meets c)
    (h : scan (leavesAll ls) c = .failed place) :
    ∃ (i : Nat) (l : Link) (vs : List Value) (mid stop : Cursor), ls[i]? = some l ∧
      scan (leavesAll (ls.take i)) c = .read vs mid ∧ mid.index ≤ place.index ∧
      place.index < mid.index + l.leaves.length ∧
      readAll ls d = .failed stop ∧ stop.Meets mid ∧ stop.index = d.index + i := by
  induction ls generalizing c d with
  | nil => simp [scan, leavesAll] at h
  | cons l ls ih =>
    rw [leavesAll_cons, scan_append, Reading.andThen_eq_failed] at h
    rcases h with hl | ⟨ws, mid, hl, htail⟩
    · obtain ⟨hmatch, hle, hlt⟩ := match?_of_scan_failed hl
      refine ⟨0, l, [], c, d, rfl, rfl, hle, hlt, ?_, hd, rfl⟩
      simp [readAll, read, hd.rest, hmatch, Reading.andThen]
    · have hread := read_of_scan_read hd hl
      obtain ⟨i, m, vs, front, stop, hm, hscan, hle, hlt, hstop, hmeets, hindex⟩ :=
        ih (c := mid) (d := ⟨mid.rest, mid.position, d.index + 1⟩) ⟨rfl, rfl⟩
          (Reading.map_eq_failed.mp htail)
      refine ⟨i + 1, m, ws ++ vs, front, stop, hm, ?_, hle, hlt, ?_, hmeets, ?_⟩
      · rw [List.take_succ_cons, leavesAll_cons, scan_append, hl]
        simp [Reading.andThen, hscan, Reading.map]
      · simp [readAll, hread, hstop, Reading.andThen, Reading.map]
      · rw [hindex]
        exact Nat.add_right_comm d.index 1 i

end Link

/-- The leaves of the links are the leaves of the steps. -/
lemma Expands.leavesAll_eq {steps : List Combinator} {links : List Link} (h : Expands steps links) :
    Link.leavesAll links = Combinator.leavesAll steps := by
  induction h with
  | nil => rfl
  | bound hne hrun hrest tail ih => simp [ih, Link.leaves]
  | label hinner body ih => simpa [Combinator.leavesAll, Combinator.leaves] using ih
  | traverse body tail ihBody ihTail =>
    simp [ihBody, ihTail, Link.leaves, Combinator.leavesAll, Combinator.leaves]

end ParserChain
