import ParserChain.Proofs.Flatten
import ParserChain.Proofs.Message
import ParserChain.Proofs.Refusal
import ParserChain.Proofs.Rewrite

/-! Grouping that a program does not show. A run of steps that stands at some depth of a sequence
lies in one run of one link; where two runs have the same leaves and the same outputs, one can take
the place of the other there, and the link stays as it is. -/
namespace ParserChain

lemma Combinator.anyTraverse_append (cs ds : List Combinator) :
    anyTraverse (cs ++ ds) = (anyTraverse cs || anyTraverse ds) := by
  simp [anyTraverse_eq_any]

/-- A sequence with a hole, which stands at any depth and takes any number of steps. -/
inductive Context
  | here (front back : List Combinator)
  | label (front : List Combinator) (body : Context) (text : String) (back : List Combinator)
  | traverse (front : List Combinator) (body : Context) (f : Transform Value)
      (back : List Combinator)
  | compileTraverse (front : List Combinator) (body : Context) (f : Transform Term)
      (back : List Combinator)

namespace Context
open Combinator

def fill : Context → List Combinator → List Combinator
  | here front back, cs => front ++ (cs ++ back)
  | label front body text back, cs => front ++ .label (body.fill cs) text :: back
  | traverse front body f back, cs => front ++ .traverse (body.fill cs) f :: back
  | compileTraverse front body f back, cs => front ++ .compileTraverse (body.fill cs) f :: back

/-- Whether a traverse stands around the hole or beside it. -/
def hasTraverse : Context → Bool
  | here front back => anyTraverse front || anyTraverse back
  | label front body _ back => anyTraverse front || (body.hasTraverse || anyTraverse back)
  | traverse .. => true
  | compileTraverse front body _ back =>
    anyTraverse front || (body.hasTraverse || anyTraverse back)

/-- The same hole with more steps in front of it all and behind it all. -/
def within (front back : List Combinator) : Context → Context
  | here before after => here (front ++ before) (after ++ back)
  | label before body text after => label (front ++ before) body text (after ++ back)
  | traverse before body f after => traverse (front ++ before) body f (after ++ back)
  | compileTraverse before body f after =>
    compileTraverse (front ++ before) body f (after ++ back)

lemma fill_within (front back : List Combinator) (k : Context) (cs : List Combinator) :
    (k.within front back).fill cs = front ++ (k.fill cs ++ back) := by
  cases k <;> simp [within, fill]

lemma fill_ne_nil (k : Context) {cs : List Combinator} (h : cs ≠ []) : k.fill cs ≠ [] := by
  cases k <;> simp [fill, h]

lemma anyTraverse_fill (k : Context) (cs : List Combinator) :
    anyTraverse (k.fill cs) = (k.hasTraverse || anyTraverse cs) := by
  induction k with
  | here front back =>
    simp only [fill, hasTraverse, anyTraverse_append]
    ac_rfl
  | label front body text back ih =>
    simp only [fill, hasTraverse, anyTraverse_append, anyTraverse, Combinator.hasTraverse, ih]
    ac_rfl
  | traverse front body f back ih =>
    simp [fill, hasTraverse, anyTraverse_append, anyTraverse, Combinator.hasTraverse]
  | compileTraverse front body f back ih =>
    simp only [fill, hasTraverse, anyTraverse_append, anyTraverse, Combinator.hasTraverse, ih]
    ac_rfl

/-- Steps without a traverse block nothing around them. -/
lemma firstBlocked?_fill (k : Context) {cs : List Combinator} (h : anyTraverse cs = false) :
    firstBlocked? (k.fill cs) = none ↔ firstBlocked? (k.fill []) = none := by
  induction k with
  | here front back => simp [fill, firstBlocked?_append, firstBlocked?_of_not_anyTraverse h]
  | label front body text back ih =>
    simp [fill, firstBlocked?_append, firstBlocked?_label, ih]
  | traverse front body f back ih =>
    simp [fill, firstBlocked?_append, firstBlocked?_traverse, ih]
  | compileTraverse front body f back ih =>
    have hbody (ds : List Combinator) (hds : anyTraverse ds = false) :
        anyTraverse (body.fill ds) = body.hasTraverse := by simp [anyTraverse_fill, hds]
    cases hk : body.hasTraverse with
    | true =>
      simp [fill, firstBlocked?_append, firstBlocked?_compileTraverse, hbody cs h, hbody [] rfl, hk]
    | false =>
      have hfree (ds : List Combinator) (hds : anyTraverse ds = false) :
          firstBlocked? (.compileTraverse (body.fill ds) f :: back) = firstBlocked? back := by
        have hone : anyTraverse [.compileTraverse (body.fill ds) f] = false := by
          simp [anyTraverse, Combinator.hasTraverse, hbody ds hds, hk]
        rw [← List.singleton_append, firstBlocked?_append, firstBlocked?_of_not_anyTraverse hone,
          Option.none_or]
      simp [fill, firstBlocked?_append, hfree cs h, hfree [] rfl]

/-- Steps without a traverse are flattened, together with the groups that stay whole around them,
into marks of their own; the marks on either side do not depend on them. -/
lemma exists_flattenAll (k : Context) (depth : Nat) :
    ∃ (before after : List (Nat × Mark)) (d : Nat) (inside : Context),
      ∀ cs, anyTraverse cs = false → flattenAll depth (k.fill cs) =
        before ++ (((inside.fill cs).map fun c => (d, .whole c)) ++ after) := by
  induction k generalizing depth with
  | here front back =>
    refine ⟨flattenAll depth front, flattenAll depth back, depth, here [] [], ?_⟩
    intro cs h
    simp [fill, flattenAll_of_not_anyTraverse depth h]
  | label front body text back ih =>
    cases hk : body.hasTraverse with
    | true =>
      obtain ⟨before, after, d, inside, hbody⟩ := ih depth
      refine ⟨flattenAll depth front ++ (depth, .cut) :: before, after ++ flattenAll depth back, d,
        inside, ?_⟩
      intro cs h
      simp [fill, flattenAll, flatten, anyTraverse_fill, hk, hbody cs h]
    | false =>
      refine ⟨flattenAll depth front, flattenAll depth back, depth, label [] body text [], ?_⟩
      intro cs h
      simp [fill, flattenAll, flatten, anyTraverse_fill, hk, h]
  | traverse front body f back ih =>
    obtain ⟨before, after, d, inside, hbody⟩ := ih (depth + 1)
    refine ⟨flattenAll depth front ++ (depth, .enter) :: before,
      after ++ (depth + 1, .exit f) :: flattenAll depth back, d, inside, ?_⟩
    intro cs h
    simp [fill, flattenAll, flatten, hbody cs h]
  | compileTraverse front body f back ih =>
    refine ⟨flattenAll depth front, flattenAll depth back, depth, compileTraverse [] body f [], ?_⟩
    intro cs h
    simp [fill, flattenAll, flatten]

end Context

namespace Mark

lemma run_append_of_whole {ms : List (Nat × Mark)} (h : (run ms).length = ms.length)
    (ns : List (Nat × Mark)) : run (ms ++ ns) = run ms ++ run ns := by
  induction ms with
  | nil => rfl
  | cons m ms ih =>
    obtain ⟨depth, m⟩ := m
    cases m <;> simp [run] at h ⊢
    exact ih h

lemma run_append_of_lt {ms : List (Nat × Mark)} (h : (run ms).length < ms.length)
    (ns : List (Nat × Mark)) : run (ms ++ ns) = run ms := by
  induction ms with
  | nil => simp at h
  | cons m ms ih =>
    obtain ⟨depth, m⟩ := m
    cases m <;> simp [run] at h ⊢
    exact ih h

end Mark

namespace Link

/-- Whole steps up to some marks are in one link with the whole steps with which these begin. -/
lemma split_whole_append (depth : Nat) (c : Combinator) {ms : List (Nat × Mark)}
    (h : (Mark.run ms).length = ms.length) (ns : List (Nat × Mark)) :
    split ((depth, .whole c) :: (ms ++ ns)) =
      (depth, .bound (c :: (Mark.run ms ++ Mark.run ns))) ::
        split (ns.drop (Mark.run ns).length) := by
  rw [split_whole, Mark.run_append_of_whole h, List.length_append, h, ← List.drop_drop,
    List.drop_left]

/-- Marks of whole steps end up in one run of one link, and the rest of the links depends only on
the marks on either side. -/
lemma exists_split_run (before after : List (Nat × Mark)) (d : Nat) :
    ∃ ls front back rs, ∀ run ≠ [],
      (split (before ++ ((run.map fun c => (d, .whole c)) ++ after))).map Prod.snd =
        ls ++ .bound (front ++ (run ++ back)) :: rs := by
  have hwhole (run : List Combinator) :
      (Mark.run (run.map fun c => (d, .whole c))).length =
        (run.map fun c => (d, Mark.whole c)).length := by simp
  induction before using split.induct with
  | case1 =>
    refine ⟨[], [], Mark.run after, (split (after.drop (Mark.run after).length)).map Prod.snd, ?_⟩
    intro run hne
    obtain ⟨c, cs, rfl⟩ := List.exists_cons_of_ne_nil hne
    rw [List.nil_append, List.map_cons, List.cons_append, split_whole_append d c (hwhole cs)]
    simp
  | case2 depth ms ih =>
    obtain ⟨ls, front, back, rs, hms⟩ := ih
    exact ⟨.enter :: ls, front, back, rs, fun run hne => by simp [hms run hne]⟩
  | case3 depth f ms ih =>
    obtain ⟨ls, front, back, rs, hms⟩ := ih
    exact ⟨.exit f :: ls, front, back, rs, fun run hne => by simp [hms run hne]⟩
  | case4 depth ms ih =>
    obtain ⟨ls, front, back, rs, hms⟩ := ih
    exact ⟨ls, front, back, rs, fun run hne => by simp [hms run hne]⟩
  | case5 depth c ms ih =>
    rcases Nat.lt_or_eq_of_le (Mark.length_run_le ms) with hlt | hall
    · -- another mark stands between the step and the whole ones
      obtain ⟨ls, front, back, rs, hms⟩ := ih
      refine ⟨.bound (c :: Mark.run ms) :: ls, front, back, rs, ?_⟩
      intro run hne
      rw [List.cons_append, split_whole, Mark.run_append_of_lt hlt,
        List.drop_append_of_le_length (Mark.length_run_le ms), List.map_cons, hms run hne]
      rfl
    · refine ⟨[], c :: Mark.run ms, Mark.run after,
        (split (after.drop (Mark.run after).length)).map Prod.snd, ?_⟩
      intro run hne
      rw [List.cons_append, ← List.append_assoc, split_whole_append depth c, List.map_cons]
      · simp [Mark.run_append_of_whole hall]
      · simp [Mark.run_append_of_whole hall, hall]

end Link

namespace Context
open Combinator

/-- Steps without a traverse end up in one run of one link, and no other link depends on them. -/
lemma exists_links (k : Context) : ∃ (ls : List Link) (inside : Context) (rs : List Link),
    ∀ cs ≠ [], anyTraverse cs = false → links (k.fill cs) = ls ++ .bound (inside.fill cs) :: rs := by
  obtain ⟨before, after, d, inside, hmarks⟩ := k.exists_flattenAll 0
  obtain ⟨ls, front, back, rs, hsplit⟩ := Link.exists_split_run before after d
  refine ⟨ls, inside.within front back, rs, ?_⟩
  intro cs hne h
  rw [links, hmarks cs h, hsplit _ (inside.fill_ne_nil hne), fill_within]

end Context

/-- Runs of steps that a link cannot tell apart, except by what its failure says. -/
structure Interchangeable (cs ds : List Combinator) : Prop where
  left : Combinator.anyTraverse cs = false
  right : Combinator.anyTraverse ds = false
  leaves : Combinator.leavesAll cs = Combinator.leavesAll ds
  matched : ∀ var, (Segment.fuse var cs).matched = (Segment.fuse var ds).matched

lemma Segment.matched_fuse_append (var : Nat) {cs : List Combinator}
    (h : Combinator.anyTraverse cs = false) (ds : List Combinator) :
    (fuse var (cs ++ ds)).matched = (fuse var cs).matched ++
      (fuse (var + Leaf.varsAll (Combinator.leavesAll cs)) ds).matched := by
  rw [fuse_append var h, matched_append, (reads_fuse var cs h).nextVar]

lemma Segment.matched_fuse_label (var : Nat) {inner : List Combinator}
    (h : Combinator.anyTraverse inner = false) (text : String) :
    (fuse var [.label inner text]).matched = (fuse var inner).matched := by
  rw [fuse_cons_of_some [] (Combinator.fuse?_label.mpr ⟨h, rfl⟩), fuse]
  simp

lemma Segment.matched_fuse_compileTraverse (var : Nat) {inner : List Combinator}
    (h : Combinator.anyTraverse inner = false) (f : Transform Term) :
    (fuse var [.compileTraverse inner f]).matched = f.apply (fuse var inner).matched := by
  rw [fuse_cons_of_some [] (Combinator.fuse?_compileTraverse.mpr ⟨h, rfl⟩), fuse]
  simp

namespace Interchangeable
open Combinator
variable {cs ds cs' ds' : List Combinator}

lemma refl (h : anyTraverse cs = false) : Interchangeable cs cs := ⟨h, h, rfl, fun _ => rfl⟩

lemma append (h : Interchangeable cs ds) (h' : Interchangeable cs' ds') :
    Interchangeable (cs ++ cs') (ds ++ ds') where
  left := by simp [anyTraverse_append, h.left, h'.left]
  right := by simp [anyTraverse_append, h.right, h'.right]
  leaves := by rw [leavesAll_append, leavesAll_append, h.leaves, h'.leaves]
  matched var := by
    rw [Segment.matched_fuse_append var h.left, Segment.matched_fuse_append var h.right,
      h.leaves, h.matched, h'.matched]

lemma label (h : Interchangeable cs ds) (text : String) :
    Interchangeable [.label cs text] [.label ds text] where
  left := by simp [anyTraverse, hasTraverse, h.left]
  right := by simp [anyTraverse, hasTraverse, h.right]
  leaves := by simp [leavesAll, Combinator.leaves, h.leaves]
  matched var := by
    rw [Segment.matched_fuse_label var h.left, Segment.matched_fuse_label var h.right, h.matched]

lemma compileTraverse (h : Interchangeable cs ds) (f : Transform Term) :
    Interchangeable [.compileTraverse cs f] [.compileTraverse ds f] where
  left := by simp [anyTraverse, hasTraverse, h.left]
  right := by simp [anyTraverse, hasTraverse, h.right]
  leaves := by simp [leavesAll, Combinator.leaves, h.leaves]
  matched var := by
    rw [Segment.matched_fuse_compileTraverse var h.left,
      Segment.matched_fuse_compileTraverse var h.right, h.matched]

/-- A rewrite that does nothing. -/
lemma ungroup {inner : List Combinator} {f : Transform Term} (h : anyTraverse inner = false)
    (hf : ∀ ts, f.apply ts = ts) : Interchangeable [.compileTraverse inner f] inner where
  left := by simp [anyTraverse, hasTraverse, h]
  right := h
  leaves := by simp [leavesAll, Combinator.leaves]
  matched var := by rw [Segment.matched_fuse_compileTraverse var h, hf]

/-- Two rewrites, one around the other. -/
lemma compose {inner : List Combinator} {f g fg : Transform Term} (h : anyTraverse inner = false)
    (hfg : ∀ ts, fg.apply ts = g.apply (f.apply ts)) :
    Interchangeable [.compileTraverse [.compileTraverse inner f] g] [.compileTraverse inner fg] where
  left := by simp [anyTraverse, hasTraverse, h]
  right := by simp [anyTraverse, hasTraverse, h]
  leaves := by simp [leavesAll, Combinator.leaves]
  matched var := by
    have hone : anyTraverse [.compileTraverse inner f] = false := by
      simp [anyTraverse, hasTraverse, h]
    rw [Segment.matched_fuse_compileTraverse var hone, Segment.matched_fuse_compileTraverse var h,
      Segment.matched_fuse_compileTraverse var h, hfg]

lemma unlabel {inner : List Combinator} (h : anyTraverse inner = false) (text : String) :
    Interchangeable [.label inner text] inner where
  left := by simp [anyTraverse, hasTraverse, h]
  right := h
  leaves := by simp [leavesAll, Combinator.leaves]
  matched var := Segment.matched_fuse_label var h text

/-- Groups that stay whole around two runs do not tell them apart either. -/
lemma fill (h : Interchangeable cs ds) (k : Context) (hk : k.hasTraverse = false) :
    Interchangeable (k.fill cs) (k.fill ds) := by
  induction k with
  | here front back =>
    simp only [Context.hasTraverse, Bool.or_eq_false_iff] at hk
    exact (refl hk.1).append (h.append (refl hk.2))
  | label front body text back ih =>
    simp only [Context.hasTraverse, Bool.or_eq_false_iff] at hk
    exact (refl hk.1).append (((ih hk.2.1).label text).append (refl hk.2.2))
  | traverse front body f back ih => simp [Context.hasTraverse] at hk
  | compileTraverse front body f back ih =>
    simp only [Context.hasTraverse, Bool.or_eq_false_iff] at hk
    exact (refl hk.1).append (((ih hk.2.1).compileTraverse f).append (refl hk.2.2))

lemma inputs_eq (h : Interchangeable cs ds) :
    (Segment.fuse 0 cs).inputs = (Segment.fuse 0 ds).inputs := by
  rw [(Segment.reads_fuse 0 cs h.left).inputs, h.leaves, (Segment.reads_fuse 0 ds h.right).inputs]

lemma procedure_eq (h : Interchangeable cs ds) (base : String) (step : Nat) :
    (Link.bound cs).procedure base step = (Link.bound ds).procedure base step := by
  have hcs := Segment.reads_fuse 0 cs h.left
  have hds := Segment.reads_fuse 0 ds h.right
  have hguards : (Segment.fuse 0 cs).guards = (Segment.fuse 0 ds).guards := by
    rw [hcs.guards, h.leaves, hds.guards]
  have hdeltas : (Segment.fuse 0 cs).deltas = (Segment.fuse 0 ds).deltas := by
    rw [hcs.deltas, h.leaves, hds.deltas]
  have houtputs : (Segment.fuse 0 cs).outputs = (Segment.fuse 0 ds).outputs :=
    List.reverse_injective (h.matched 0)
  simp [Link.procedure, Segment.link, Segment.matchesInput, h.inputs_eq, hguards, hdeltas, houtputs]

end Interchangeable

/-- A run that reads input fails with what all of its steps expect. -/
lemma Link.catchAll?_bound {run : List Combinator} (h : Combinator.anyTraverse run = false)
    (base : String) (step : Nat) : (Link.bound run).catchAll? base step =
      if (Segment.fuse 0 run).inputs.isEmpty then none
      else some { name := (Name.link base step).catchAll
                  body := .error (Combinator.expected run) } := by
  have hused : (Segment.fuse 0 run).used = run := by
    rw [Segment.used_fuse, (Segment.consumed_fuse_eq_length 0 run).mpr h, List.take_length]
  cases hi : (Segment.fuse 0 run).inputs.isEmpty <;>
    simp [catchAll?, Segment.matchesInput, Segment.catchAll, hi, hused]

lemma Context.spoken_fill (k : Context) {cs ds : List Combinator}
    (h : (Combinator.spokenAll cs).map Combinator.describe =
      (Combinator.spokenAll ds).map Combinator.describe) :
    (Combinator.spokenAll (k.fill cs)).map Combinator.describe =
      (Combinator.spokenAll (k.fill ds)).map Combinator.describe := by
  induction k with
  | here front back => simp [fill, h]
  | label front body text back ih =>
    simp [fill, Combinator.spokenAll, Combinator.spoken, Combinator.describe]
  | traverse front body f back ih => simp [fill, Combinator.spokenAll, Combinator.spoken, ih]
  | compileTraverse front body f back ih =>
    simp [fill, Combinator.spokenAll, Combinator.spoken, ih]

/-- The body without the text of its failure. -/
def Body.withoutReason : Body → Body
  | .error _ => .error ""
  | body => body

def Procedure.withoutReason (p : Procedure) : Procedure := { p with body := p.body.withoutReason }

/-- The program without the texts of its failures. -/
def Program.withoutReasons (p : Program) : Program :=
  { p with procedures := p.procedures.map Procedure.withoutReason }

namespace Interchangeable
variable {cs ds : List Combinator}

lemma block_eq (h : Interchangeable cs ds)
    (hwords : (Combinator.spokenAll cs).map Combinator.describe =
      (Combinator.spokenAll ds).map Combinator.describe) (base : String) (step : Nat) :
    (Link.bound cs).block base step = (Link.bound ds).block base step := by
  rw [Link.block, Link.block, h.procedure_eq, Link.catchAll?_bound h.left,
    Link.catchAll?_bound h.right, h.inputs_eq, Combinator.expected_eq_spoken, hwords,
    ← Combinator.expected_eq_spoken]

lemma block_withoutReason (h : Interchangeable cs ds) (base : String) (step : Nat) :
    ((Link.bound cs).block base step).map Procedure.withoutReason =
      ((Link.bound ds).block base step).map Procedure.withoutReason := by
  rw [Link.block, Link.block, h.procedure_eq, Link.catchAll?_bound h.left,
    Link.catchAll?_bound h.right, h.inputs_eq]
  split <;> rfl

end Interchangeable

/-- The program of links, laid out around one of them. -/
lemma Program.ofLinks_append (name : String) (start : Position) (ls rs : List Link) (l : Link) :
    ofLinks name start (ls ++ l :: rs) =
      { name := name
        entry := ⟨.link name 0, start⟩
        procedures := Link.layout name 0 ls ++ (l.block name ls.length ++
          (Link.layout name (ls.length + 1) rs ++
            [successLink name (ls.length + (rs.length + 1))])) } := by
  simp [ofLinks, Link.layout_append, Link.layout]

namespace Context
variable {config : Config} {name : String} {p : Program} {cs ds : List Combinator}

/-- With one of two runs that a link cannot tell apart in place of the other, a sequence still
compiles, and its program comes from the same links but for one. -/
lemma exists_compile_fill (k : Context) (hcs : cs ≠ []) (hds : ds ≠ [])
    (h : Interchangeable cs ds) (hp : config.compile name (k.fill cs) = .ok p) :
    ∃ (ls : List Link) (inside : Context) (rs : List Link),
      Interchangeable (inside.fill cs) (inside.fill ds) ∧
      p = Program.ofLinks name config.start (ls ++ .bound (inside.fill cs) :: rs) ∧
      config.compile name (k.fill ds) =
        .ok (Program.ofLinks name config.start (ls ++ .bound (inside.fill ds) :: rs)) := by
  obtain ⟨ls, inside, rs, hlinks⟩ := k.exists_links
  have hfree := (k.firstBlocked?_fill h.left).mp (Config.firstBlocked?_of_compile hp)
  obtain ⟨q, hq⟩ : ∃ q, config.compile name (k.fill ds) = .ok q :=
    Config.exists_compile (k.fill_ne_nil hds) ((k.firstBlocked?_fill h.right).mpr hfree)
  obtain ⟨expanded, hexpands, rfl⟩ := expands_of_compile hp
  obtain ⟨expanded', hexpands', rfl⟩ := expands_of_compile hq
  have heq : expanded = ls ++ .bound (inside.fill cs) :: rs :=
    (hexpands.map_split 0).symm.trans (hlinks cs hcs h.left)
  have heq' : expanded' = ls ++ .bound (inside.fill ds) :: rs :=
    (hexpands'.map_split 0).symm.trans (hlinks ds hds h.right)
  have hinside : inside.hasTraverse = false := by
    have hmem : .bound (inside.fill cs) ∈ expanded := by simp [heq]
    have hrun := hexpands.anyTraverse_of_mem hmem
    rw [anyTraverse_fill, Bool.or_eq_false_iff] at hrun
    exact hrun.1
  exact ⟨ls, inside, rs, h.fill inside hinside, by rw [heq], by rw [hq, heq']⟩

/-- Where the two runs are put in the same words as well, the program is the same. -/
lemma compile_fill_eq (k : Context) (hcs : cs ≠ []) (hds : ds ≠ []) (h : Interchangeable cs ds)
    (hwords : (Combinator.spokenAll cs).map Combinator.describe =
      (Combinator.spokenAll ds).map Combinator.describe)
    (hp : config.compile name (k.fill cs) = .ok p) : config.compile name (k.fill ds) = .ok p := by
  obtain ⟨ls, inside, rs, hinside, rfl, hq⟩ := k.exists_compile_fill hcs hds h hp
  rw [hq, Program.ofLinks_append, Program.ofLinks_append,
    hinside.block_eq (inside.spoken_fill hwords)]

lemma exists_compile_withoutReasons (k : Context) (hcs : cs ≠ []) (hds : ds ≠ [])
    (h : Interchangeable cs ds) (hp : config.compile name (k.fill cs) = .ok p) :
    ∃ q, config.compile name (k.fill ds) = .ok q ∧ q.withoutReasons = p.withoutReasons := by
  obtain ⟨ls, inside, rs, hinside, rfl, hq⟩ := k.exists_compile_fill hcs hds h hp
  refine ⟨_, hq, ?_⟩
  simp only [Program.ofLinks_append, Program.withoutReasons, List.map_append,
    hinside.block_withoutReason]

/-- What stands in the hole of a sequence that compiles blocks nothing by itself. -/
lemma firstBlocked?_of_fill (k : Context) (h : Combinator.firstBlocked? (k.fill cs) = none) :
    Combinator.firstBlocked? cs = none := by
  induction k with
  | here front back =>
    simp only [fill, Combinator.firstBlocked?_append, Option.or_eq_none_iff] at h
    exact h.2.1
  | label front body text back ih =>
    simp only [fill, Combinator.firstBlocked?_append, Combinator.firstBlocked?_label,
      Option.or_eq_none_iff] at h
    exact ih h.2.1
  | traverse front body f back ih =>
    simp only [fill, Combinator.firstBlocked?_append, Combinator.firstBlocked?_traverse,
      Option.or_eq_none_iff] at h
    exact ih h.2.1
  | compileTraverse front body f back ih =>
    cases hbody : Combinator.anyTraverse (body.fill cs) with
    | true =>
      simp [fill, Combinator.firstBlocked?_append,
        Combinator.firstBlocked?_compileTraverse f back hbody] at h
    | false =>
      rw [anyTraverse_fill, Bool.or_eq_false_iff] at hbody
      exact Combinator.firstBlocked?_of_not_anyTraverse hbody.2

lemma anyTraverse_of_compile (k : Context) {inner : List Combinator} {f : Transform Term}
    (hp : config.compile name (k.fill [.compileTraverse inner f]) = .ok p) :
    Combinator.anyTraverse inner = false := by
  have hfree := k.firstBlocked?_of_fill (Config.firstBlocked?_of_compile hp)
  cases hinner : Combinator.anyTraverse inner with
  | false => rfl
  | true => simp [Combinator.firstBlocked?_compileTraverse f [] hinner] at hfree

/-- A sequence that compiles can be grouped in another way, at any depth, and its program does not
change. A rewrite that does nothing can be left out around a run that is not empty, and two rewrites
one around the other can be made into one. A label around a run that is not empty and holds no
traverse shows only in what failures say. -/
theorem compile_regrouped (k : Context) (config : Config) (name : String) (p : Program) :
    (∀ inner f, inner ≠ [] → (∀ ts, f.apply ts = ts) →
      config.compile name (k.fill [.compileTraverse inner f]) = .ok p →
      config.compile name (k.fill inner) = .ok p) ∧
    (∀ inner f g h, (∀ ts, h.apply ts = g.apply (f.apply ts)) →
      config.compile name (k.fill [.compileTraverse [.compileTraverse inner f] g]) = .ok p →
      config.compile name (k.fill [.compileTraverse inner h]) = .ok p) ∧
    ∀ inner text, inner ≠ [] → Combinator.anyTraverse inner = false →
      config.compile name (k.fill [.label inner text]) = .ok p →
      ∃ q, config.compile name (k.fill inner) = .ok q ∧
        q.withoutReasons = p.withoutReasons := by
  refine ⟨?_, ?_, ?_⟩
  · intro inner f hne hf hp
    have hinner := k.anyTraverse_of_compile hp
    refine k.compile_fill_eq (by simp) hne (.ungroup hinner hf) ?_ hp
    simp [Combinator.spokenAll, Combinator.spoken]
  · intro inner f g h hfg hp
    have hinner : Combinator.anyTraverse inner = false := by
      simpa [Combinator.anyTraverse, Combinator.hasTraverse] using k.anyTraverse_of_compile hp
    refine k.compile_fill_eq (by simp) (by simp) (.compose hinner hfg) ?_ hp
    simp [Combinator.spokenAll, Combinator.spoken]
  · intro inner text hne hinner hp
    exact k.exists_compile_withoutReasons (by simp) hne (.unlabel hinner text) hp

open Combinator in
/-- A hole in a rewrite, which stands in a traverse in a label. -/
def nested : Context :=
  .label [.literal "a"]
    (.traverse [] (.compileTraverse [byte] (.here [] [.literal "b"]) ⟨"reverse", List.reverse⟩ [])
      ⟨"reverse", List.reverse⟩ [.literal "c"]) "x" [byte]

def pair : List Combinator := [.literal "d", Combinator.byte]

def same : Transform Term := ⟨"same", id⟩

def swap : Transform Term := ⟨"reverse", List.reverse⟩

/-- A pair takes the place of three groups around it. -/
theorem compile_regrouped_nested :
    pair ≠ [] ∧ Combinator.anyTraverse pair = false ∧ ∃ p q r,
      Config.compile {} "p" (nested.fill [.compileTraverse pair same]) = .ok p ∧
      Config.compile {} "p" (nested.fill pair) = .ok p ∧
      Config.compile {} "p" (nested.fill [.compileTraverse [.compileTraverse pair same] swap]) =
        .ok q ∧
      Config.compile {} "p" (nested.fill [.compileTraverse pair swap]) = .ok q ∧
      Config.compile {} "p" (nested.fill [.label pair "y"]) = .ok r ∧
      p.withoutReasons = r.withoutReasons := by
  have hne : pair ≠ [] := by simp [pair]
  have hpair : Combinator.anyTraverse pair = false := rfl
  obtain ⟨p, hp⟩ : ∃ p, Config.compile {} "p" (nested.fill [.compileTraverse pair same]) = .ok p :=
    Config.exists_compile (nested.fill_ne_nil (List.cons_ne_nil _ _)) rfl
  obtain ⟨q, hq⟩ : ∃ q, Config.compile {} "p"
      (nested.fill [.compileTraverse [.compileTraverse pair same] swap]) = .ok q :=
    Config.exists_compile (nested.fill_ne_nil (List.cons_ne_nil _ _)) rfl
  obtain ⟨r, hr⟩ : ∃ r, Config.compile {} "p" (nested.fill [.label pair "y"]) = .ok r :=
    Config.exists_compile (nested.fill_ne_nil (List.cons_ne_nil _ _)) rfl
  have hp' := (compile_regrouped nested {} "p" p).1 pair same hne (fun _ => rfl) hp
  have hq' := (compile_regrouped nested {} "p" q).2.1 pair same swap swap (fun _ => rfl) hq
  obtain ⟨p', hp'', hreasons⟩ := (compile_regrouped nested {} "p" r).2.2 pair "y" hne hpair hr
  obtain rfl : p = p' := Except.ok.inj (hp'.symm.trans hp'')
  exact ⟨hne, hpair, p, q, r, hp, hp', hq, hq', hr, hreasons⟩

end Context
end ParserChain
