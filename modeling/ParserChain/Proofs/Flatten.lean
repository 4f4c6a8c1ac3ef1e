import ParserChain.Proofs.LinkReader
import ParserChain.Proofs.Shape

/-! A sequence laid out flat, in one pass from left to right. A traverse leaves a mark at each of
its ends and a label around a traverse one where it begins; any other step stays whole. The links
of a chain are these marks and the longest runs of whole steps between them. -/
namespace ParserChain

/-- What a sequence is flattened into. -/
inductive Mark
  | enter
  | exit (f : Transform Value)
  /-- A label around a traverse begins here. -/
  | cut
  | whole (c : Combinator)

namespace Combinator

mutual
/-- The marks of a step, each with the number of traverses that are open in front of it. -/
def flatten (depth : Nat) : Combinator → List (Nat × Mark)
  | .literal text => [(depth, .whole (.literal text))]
  | .byteRange ranges modifiers => [(depth, .whole (.byteRange ranges modifiers))]
  | .label inner text =>
    if anyTraverse inner then (depth, .cut) :: flattenAll depth inner
    else [(depth, .whole (.label inner text))]
  | .traverse inner f =>
    (depth, .enter) :: (flattenAll (depth + 1) inner ++ [(depth + 1, .exit f)])
  | .compileTraverse inner f => [(depth, .whole (.compileTraverse inner f))]

def flattenAll (depth : Nat) : List Combinator → List (Nat × Mark)
  | [] => []
  | c :: cs => flatten depth c ++ flattenAll depth cs
end

@[simp] lemma flattenAll_append (depth : Nat) (cs ds : List Combinator) :
    flattenAll depth (cs ++ ds) = flattenAll depth cs ++ flattenAll depth ds := by
  induction cs with
  | nil => rfl
  | cons c cs ih => simp [flattenAll, ih]

lemma flatten_of_not_hasTraverse (depth : Nat) {c : Combinator} (h : c.hasTraverse = false) :
    c.flatten depth = [(depth, .whole c)] := by
  cases c with
  | literal text => rfl
  | byteRange ranges modifiers => rfl
  | label inner text => simp [flatten, show anyTraverse inner = false from h]
  | traverse inner f => simp [hasTraverse] at h
  | compileTraverse inner f => rfl

lemma flattenAll_of_not_anyTraverse (depth : Nat) {cs : List Combinator}
    (h : anyTraverse cs = false) : flattenAll depth cs = cs.map fun c => (depth, .whole c) := by
  induction cs with
  | nil => rfl
  | cons c cs ih =>
    simp only [anyTraverse, Bool.or_eq_false_iff] at h
    simp [flattenAll, flatten_of_not_hasTraverse depth h.1, ih h.2]

end Combinator

namespace Mark

/-- The whole steps in front of the first other mark. -/
def run : List (Nat × Mark) → List Combinator
  | (_, .whole c) :: ms => c :: run ms
  | _ => []

lemma length_run_le (ms : List (Nat × Mark)) : (run ms).length ≤ ms.length := by
  induction ms with
  | nil => simp [run]
  | cons m ms ih =>
    obtain ⟨depth, m⟩ := m
    cases m <;> simp [run]
    exact ih

/-- A run ends where no whole step follows. -/
lemma run_append {ns : List (Nat × Mark)} (h : run ns = []) (ms : List (Nat × Mark)) :
    run (ms ++ ns) = run ms := by
  induction ms with
  | nil => exact h
  | cons m ms ih =>
    obtain ⟨depth, m⟩ := m
    cases m <;> simp [run, ih]

/-- The marks behind a run begin with none that is whole. -/
@[simp] lemma run_drop (ms : List (Nat × Mark)) : run (ms.drop (run ms).length) = [] := by
  induction ms with
  | nil => rfl
  | cons m ms ih =>
    obtain ⟨depth, m⟩ := m
    cases m <;> simp [run, ih]

lemma run_take (ms : List (Nat × Mark)) : run (ms.take (run ms).length) = run ms := by
  induction ms with
  | nil => rfl
  | cons m ms ih =>
    obtain ⟨depth, m⟩ := m
    cases m <;> simp [run, ih]

lemma run_of_append {ms ns : List (Nat × Mark)} (h : run (ms ++ ns) = []) : run ms = [] := by
  cases ms with
  | nil => rfl
  | cons m ms =>
    obtain ⟨depth, m⟩ := m
    cases m <;> simp_all [run]

@[simp] lemma run_map_whole (depth : Nat) (cs : List Combinator) :
    run (cs.map fun c => (depth, whole c)) = cs := by
  induction cs with
  | nil => rfl
  | cons c cs ih => simp [run, ih]

end Mark

namespace Link

/-- The links of marks: one for each traverse mark and for each longest run of whole steps. A link
has the number of traverses that are open in front of it. -/
def split : List (Nat × Mark) → List (Nat × Link)
  | [] => []
  | (depth, .enter) :: ms => (depth, .enter) :: split ms
  | (depth, .exit f) :: ms => (depth, .exit f) :: split ms
  | (_, .cut) :: ms => split ms
  | (depth, .whole c) :: ms =>
    (depth, .bound (c :: Mark.run ms)) :: split (ms.drop (Mark.run ms).length)
termination_by ms => ms.length

variable (depth : Nat) (ms : List (Nat × Mark))

@[simp] lemma split_nil : split [] = [] := by rw [split]

@[simp] lemma split_enter : split ((depth, .enter) :: ms) = (depth, .enter) :: split ms := by
  rw [split]

@[simp] lemma split_exit (f : Transform Value) :
    split ((depth, .exit f) :: ms) = (depth, .exit f) :: split ms := by
  rw [split]

@[simp] lemma split_cut : split ((depth, .cut) :: ms) = split ms := by rw [split]

lemma split_whole (c : Combinator) : split ((depth, .whole c) :: ms) =
    (depth, .bound (c :: Mark.run ms)) :: split (ms.drop (Mark.run ms).length) := by
  rw [split]

variable {ms} in
/-- Marks are split on their own wherever no whole step follows. -/
lemma split_append {ns : List (Nat × Mark)} (h : Mark.run ns = []) :
    split (ms ++ ns) = split ms ++ split ns := by
  induction ms using split.induct with
  | case1 => simp
  | case2 depth ms ih => simp [ih]
  | case3 depth f ms ih => simp [ih]
  | case4 depth ms ih => simp [ih]
  | case5 depth c ms ih =>
    rw [List.cons_append, split_whole, split_whole, Mark.run_append h,
      List.drop_append_of_le_length (Mark.length_run_le ms), ih, List.cons_append]

/-- A run of whole steps that no other follows is one link. -/
lemma split_run {run : List Combinator} (hne : run ≠ []) {ns : List (Nat × Mark)}
    (h : Mark.run ns = []) : split ((run.map fun c => (depth, .whole c)) ++ ns) =
      (depth, .bound run) :: split ns := by
  obtain ⟨c, cs, rfl⟩ := List.exists_cons_of_ne_nil hne
  rw [split_append h, List.map_cons, split_whole, Mark.run_map_whole,
    List.drop_of_length_le (by simp)]
  simp

/-- A longest run of whole steps is split off with its marks. -/
lemma split_take_run (c : Combinator) {ns : List (Nat × Mark)} (h : Mark.run ns = []) :
    split ((depth, .whole c) :: (ms.take (Mark.run ms).length ++ ns)) =
      (depth, .bound (c :: Mark.run ms)) :: split ns := by
  have hlen : (ms.take (Mark.run ms).length).length = (Mark.run ms).length :=
    List.length_take_of_le (Mark.length_run_le ms)
  have hdrop : (ms.take (Mark.run ms).length ++ ns).drop (ms.take (Mark.run ms).length).length =
      ns := List.drop_left
  rw [hlen] at hdrop
  rw [split_whole, Mark.run_append h, Mark.run_take, hdrop]

variable {depth ms}

/-- The marks of the links up to a run come before those of the links behind it. -/
lemma exists_append_of_split {k : Nat} {run : List Combinator} {ls rest : List (Nat × Link)}
    (h : split ms = ls ++ (k, .bound run) :: rest) : ∃ before after, ms = before ++ after ∧
      split before = ls ++ [(k, .bound run)] ∧ split after = rest ∧ Mark.run after = [] := by
  induction ms using split.induct generalizing ls with
  | case1 => simp at h
  | case2 depth ms ih =>
    rw [split_enter] at h
    cases ls with
    | nil => simp at h
    | cons l ls =>
      obtain ⟨rfl, htail⟩ := List.cons_eq_cons.mp h
      obtain ⟨before, after, rfl, hbefore, hafter, hrun⟩ := ih htail
      exact ⟨(depth, .enter) :: before, after, rfl, by simp [hbefore], hafter, hrun⟩
  | case3 depth f ms ih =>
    rw [split_exit] at h
    cases ls with
    | nil => simp at h
    | cons l ls =>
      obtain ⟨rfl, htail⟩ := List.cons_eq_cons.mp h
      obtain ⟨before, after, rfl, hbefore, hafter, hrun⟩ := ih htail
      exact ⟨(depth, .exit f) :: before, after, rfl, by simp [hbefore], hafter, hrun⟩
  | case4 depth ms ih =>
    rw [split_cut] at h
    obtain ⟨before, after, rfl, hbefore, hafter, hrun⟩ := ih h
    exact ⟨(depth, .cut) :: before, after, rfl, by simp [hbefore], hafter, hrun⟩
  | case5 depth c ms ih =>
    rw [split_whole] at h
    have hms := List.take_append_drop (Mark.run ms).length ms
    cases ls with
    | nil =>
      obtain ⟨hlink, hrest⟩ := List.cons_eq_cons.mp h
      have hbefore := split_take_run depth ms c (show Mark.run [] = [] from rfl)
      rw [List.append_nil, split_nil] at hbefore
      refine ⟨(depth, .whole c) :: ms.take (Mark.run ms).length,
        ms.drop (Mark.run ms).length, by simp, ?_, hrest, Mark.run_drop ms⟩
      rw [hbefore, hlink]
      rfl
    | cons l ls =>
      obtain ⟨rfl, htail⟩ := List.cons_eq_cons.mp h
      obtain ⟨before, after, hdrop, hbefore, hafter, hrun⟩ := ih htail
      have hnone : Mark.run before = [] := Mark.run_of_append (hdrop ▸ Mark.run_drop ms)
      refine ⟨(depth, .whole c) :: (ms.take (Mark.run ms).length ++ before), after, ?_, ?_,
        hafter, hrun⟩
      · rw [List.cons_append, List.append_assoc, ← hdrop, hms]
      · rw [split_take_run depth ms c hnone, hbefore, List.cons_append]

/-- Between two links that match runs there is a cut. -/
lemma exists_cut_of_split {k l : Nat} {run next : List Combinator} {ls rest : List (Nat × Link)}
    (h : split ms = ls ++ (k, .bound run) :: (l, .bound next) :: rest) :
    ∃ before depth after, ms = before ++ (depth, .cut) :: after ∧
      split before = ls ++ [(k, .bound run)] ∧ split after = (l, .bound next) :: rest := by
  obtain ⟨before, after, rfl, hbefore, hafter, hrun⟩ := exists_append_of_split h
  cases after with
  | nil => simp at hafter
  | cons m after =>
    obtain ⟨depth, m⟩ := m
    cases m with
    | enter => simp at hafter
    | exit f => simp at hafter
    | cut => exact ⟨before, depth, after, rfl, hbefore, by simpa using hafter⟩
    | whole c => simp [Mark.run] at hrun

/-- By how much a link changes the number of open traverses. -/
def rise : Link → Int
  | bound _ => 0
  | enter => 1
  | exit _ => -1

def height : List Link → Int
  | [] => 0
  | l :: ls => l.rise + height ls

@[simp] lemma height_nil : height [] = 0 := rfl

@[simp] lemma height_cons (l : Link) (ls : List Link) : height (l :: ls) = l.rise + height ls := rfl

@[simp] lemma height_append (ls ms : List Link) : height (ls ++ ms) = height ls + height ms := by
  induction ls with
  | nil => simp
  | cons l ls ih => simp [ih, Int.add_assoc]

/-- Links with the number of traverses that are open in front of each. -/
def placed (depth : Int) : List Link → List (Int × Link)
  | [] => []
  | l :: ls => (depth, l) :: placed (depth + l.rise) ls

lemma placed_append (depth : Int) (ls ms : List Link) :
    placed depth (ls ++ ms) = placed depth ls ++ placed (depth + height ls) ms := by
  induction ls generalizing depth with
  | nil => simp [placed]
  | cons l ls ih => simp [placed, ih, Int.add_assoc]

/-- Links between an entry and its exit are one traverse deeper, and those behind are not. -/
lemma placed_traverse {ls : List Link} (hls : height ls = 0) (depth : Int) (f : Transform Value)
    (ms : List Link) : placed depth (.enter :: (ls ++ .exit f :: ms)) =
      (depth, .enter) :: (placed (depth + 1) ls ++ (depth + 1, .exit f) :: placed depth ms) := by
  have hdown : depth + 1 + -1 = depth := Int.add_neg_cancel_right depth 1
  simp only [placed, placed_append, rise, hls, Int.add_zero, hdown]

@[simp] lemma map_snd_placed (depth : Int) (ls : List Link) :
    (placed depth ls).map Prod.snd = ls := by
  induction ls generalizing depth with
  | nil => rfl
  | cons l ls ih => simp [placed, ih]

lemma placed_getElem? {depth k : Int} {ls : List Link} {l : Link} {i : Nat}
    (h : (placed depth ls)[i]? = some (k, l)) : k = depth + height (ls.take i) := by
  induction ls generalizing depth i with
  | nil => simp [placed] at h
  | cons m ls ih =>
    cases i with
    | zero =>
      obtain ⟨rfl, -⟩ : depth = k ∧ m = l := by simpa [placed] using h
      simp
    | succ i =>
      rw [ih (by simpa [placed] using h)]
      simp [Int.add_assoc]

end Link

namespace Combinator

/-- The links that a sequence is flattened and split into. -/
def links (steps : List Combinator) : List Link :=
  (Link.split (flattenAll 0 steps)).map Prod.snd

end Combinator

/-- A step that holds a traverse gives way to its inner steps, if the sequence expands. -/
lemma Expands.run_flattenAll {steps : List Combinator} {links : List Link}
    (h : Expands steps links) (hhead : ∀ c ∈ steps.head?, c.hasTraverse = true) (depth : Nat) :
    Mark.run (Combinator.flattenAll depth steps) = [] := by
  cases h with
  | nil => rfl
  | @bound run rest links hne hrun hrest tail =>
    obtain ⟨c, cs, rfl⟩ := List.exists_cons_of_ne_nil hne
    have hc : c.hasTraverse = true := hhead c rfl
    simp [Combinator.anyTraverse, hc] at hrun
  | label hinner body =>
    simp [Combinator.flattenAll, Combinator.flatten, hinner, Mark.run]
  | traverse body tail =>
    simp [Combinator.flattenAll, Combinator.flatten, Mark.run]

/-- As many traverses end among the links of a sequence as begin there. -/
lemma Expands.height_eq {steps : List Combinator} {links : List Link} (h : Expands steps links) :
    Link.height links = 0 := by
  induction h with
  | nil => rfl
  | bound hne hrun hrest tail ih => simpa [Link.rise] using ih
  | label hinner body ih => exact ih
  | traverse body tail ihBody ihTail => simp [ihBody, ihTail, Link.rise]

/-- Links that a sequence expands to are those that its marks are split into, each with the entries
before it, less the exits. -/
theorem Expands.split_eq {steps : List Combinator} {links : List Link} (h : Expands steps links)
    (depth : Nat) : (Link.split (Combinator.flattenAll depth steps)).map
      (fun (k, l) => ((k : Int), l)) = Link.placed depth links := by
  induction h generalizing depth with
  | nil => simp [Combinator.flattenAll, Link.placed]
  | bound hne hrun hrest tail ih =>
    rw [Combinator.flattenAll_append, Combinator.flattenAll_of_not_anyTraverse depth hrun,
      Link.split_run depth hne (tail.run_flattenAll hrest depth), List.map_cons, ih]
    simp [Link.placed, Link.rise]
  | label hinner body ih =>
    have hbody := ih depth
    rw [Combinator.flattenAll_append] at hbody
    simpa [Combinator.flattenAll, Combinator.flatten, hinner] using hbody
  | traverse body tail ihBody ihTail =>
    rw [Combinator.flattenAll, Combinator.flatten, List.cons_append, List.append_assoc,
      Link.split_enter, Link.split_append (by simp [Mark.run])]
    simp [ihBody, ihTail, Link.placed_traverse body.height_eq]

lemma Expands.map_split {steps : List Combinator} {links : List Link} (h : Expands steps links)
    (depth : Nat) :
    (Link.split (Combinator.flattenAll depth steps)).map Prod.snd = links := by
  have hsplit := congrArg (List.map Prod.snd) (h.split_eq depth)
  rwa [List.map_map, Link.map_snd_placed] at hsplit

/-- The links of the program are built from these, in order, and the success comes last. -/
structure Program.BuiltFrom (p : Program) (links : List Link) : Prop where
  count : p.links.length = links.length + 1
  /-- A run is matched by what is extracted from it, with captures numbered from zero. -/
  bound : ∀ (i : Nat) (run : List Combinator), links[i]? = some (.bound run) →
    ∃ s, s = Segment.fuse 0 run ∧
      (Combinator.unitsAheadAll run ≤ Counter.largest → Segment.extract 0 run = .ok s) ∧
      p.links[i]? = some
        { name := .link p.name i
          input := s.inputs
          guard := .allOf s.guards
          body := .invoke (.link p.name (i + 1)) (.ofTerms s.outputs) .keep (.ofDeltas s.deltas)
          fallback := if s.matchesInput then some (Name.link p.name i).catchAll else none }
  enter : ∀ i : Nat, links[i]? = some .enter → p.links[i]? = some
    { name := .link p.name i, body := .invoke (.link p.name (i + 1)) .empty .push .still }
  exit : ∀ (i : Nat) (f : Transform Value), links[i]? = some (.exit f) → p.links[i]? = some
    { name := .link p.name i
      stack := .saved
      body := .invoke (.link p.name (i + 1)) (.merge f) .pop .still }
  success : p.links[links.length]? = some { name := .link p.name links.length, body := .ok }

lemma Program.links_ofLinks_getElem? {name : String} {start : Position} {links : List Link}
    {i : Nat} {l : Link} (h : links[i]? = some l) :
    (ofLinks name start links).links[i]? = some (l.procedure name i) := by
  have hi := (List.getElem?_eq_some_iff.mp h).1
  rw [links_ofLinks, List.getElem?_append_left (by simpa using hi), Link.procedures_getElem?, h,
    Nat.zero_add]
  rfl

theorem Program.builtFrom_ofLinks (name : String) (start : Position) (links : List Link) :
    (ofLinks name start links).BuiltFrom links := by
  have hlinks := links_ofLinks name start links
  constructor
  case count => simp [hlinks]
  case bound =>
    intro i run hl
    refine ⟨_, rfl, ?_, links_ofLinks_getElem? hl⟩
    intro hunits
    have hseed : (0 : Counter).toNat = 0 := rfl
    simp [Segment.extract, hseed, hunits]
  case enter => exact fun i hl => links_ofLinks_getElem? hl
  case exit => exact fun i f hl => links_ofLinks_getElem? hl
  case success =>
    change (ofLinks name start links).links[links.length]? = some (successLink name links.length)
    simp [hlinks]

lemma Expands.of_run {run : List Combinator} (hne : run ≠ [])
    (hrun : Combinator.anyTraverse run = false) : Expands run [.bound run] := by
  simpa using Expands.bound hne hrun (by simp) .nil

namespace Combinator

/-- A traverse within a traverse, behind the start of a label and in front of its end. -/
def tangled : List Combinator :=
  [.literal "a",
    .label [.literal "b",
      .traverse [byte, .traverse [byte] ⟨"reverse", List.reverse⟩] ⟨"wrap", fun vs => [.list vs]⟩,
      .literal "c"] "x",
    .literal "d"]

/-- The links of that sequence. -/
def tangledLinks : List Link :=
  [.bound [.literal "a"], .bound [.literal "b"], .enter, .bound [byte], .enter, .bound [byte],
    .exit ⟨"reverse", List.reverse⟩, .exit ⟨"wrap", fun vs => [.list vs]⟩,
    .bound [.literal "c", .literal "d"]]

lemma expands_tangled : Expands tangled tangledLinks := by
  have hbyte : Expands [byte] [.bound [byte]] := .of_run (by simp) rfl
  have hinner := hbyte.traverse (f := ⟨"reverse", List.reverse⟩) .nil
  have hbody := Expands.bound (List.cons_ne_nil byte []) rfl (by simp [hasTraverse]) hinner
  have hend : Expands [.literal "c", .literal "d"] [.bound [.literal "c", .literal "d"]] :=
    .of_run (by simp) rfl
  have htraverse := hbody.traverse (f := ⟨"wrap", fun vs => [.list vs]⟩) hend
  have hinside := Expands.bound (List.cons_ne_nil (.literal "b") []) rfl (by simp [hasTraverse])
    htraverse
  have hlabel : Expands tangled.tail tangledLinks.tail := .label rfl hinside
  exact .bound (List.cons_ne_nil (.literal "a") []) rfl
    (by simp [tangled, hasTraverse, anyTraverse]) hlabel

end Combinator
end ParserChain
