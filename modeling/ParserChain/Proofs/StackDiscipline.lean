import ParserChain.Proofs.Flatten
import ParserChain.Proofs.Transfer

/-! The stack of a run. Of the links of a traverse the first pushes a frame and the last takes it
back, and whatever stands between them leaves the stack as it was. The depth of the stack is then
the number of traverses that are open, on every run. -/
namespace ParserChain

namespace Link

/-- What a link makes of the stack when it hands over to the next one. -/
inductive Shifts : Link → List (List Value) → List (List Value) → Prop
  | bound (run : List Combinator) (st : List (List Value)) : Shifts (.bound run) st st
  | enter (frame : List Value) (st : List (List Value)) : Shifts .enter st (frame :: st)
  | exit (f : Transform Value) (frame : List Value) (st : List (List Value)) :
      Shifts (.exit f) (frame :: st) st

/-- What links in a row make of the stack. -/
inductive Stacks : List Link → List (List Value) → List (List Value) → Prop
  | nil (st : List (List Value)) : Stacks [] st st
  | cons {l : Link} {ls : List Link} {st mid st' : List (List Value)} (head : l.Shifts st mid)
      (tail : Stacks ls mid st') : Stacks (l :: ls) st st'

lemma Stacks.of_append {ls ms : List Link} {st st' : List (List Value)}
    (h : Stacks (ls ++ ms) st st') : ∃ mid, Stacks ls st mid ∧ Stacks ms mid st' := by
  induction ls generalizing st with
  | nil => exact ⟨st, .nil st, h⟩
  | cons l ls ih =>
    obtain _ | ⟨head, tail⟩ := h
    obtain ⟨mid, hls, hms⟩ := ih tail
    exact ⟨mid, .cons head hls, hms⟩

lemma Stacks.length_eq {ls : List Link} {st st' : List (List Value)} (h : Stacks ls st st') :
    (st'.length : Int) = st.length + height ls := by
  induction h with
  | nil st => simp
  | cons head tail ih =>
    cases head <;> simp only [ih, height_cons, rise, List.length_cons] <;> omega

end Link

namespace Expands
variable {steps : List Combinator} {links : List Link} (h : Expands steps links)
include h

/-- The links of a sequence leave the stack as it was, whatever they push and take meanwhile. -/
theorem stack_eq {st st' : List (List Value)} (hs : Link.Stacks links st st') : st' = st := by
  induction h generalizing st st' with
  | nil =>
    cases hs
    rfl
  | bound hne hrun hrest tail ih =>
    obtain _ | ⟨head, htail⟩ := hs
    cases head
    exact ih htail
  | label hinner body ih => exact ih hs
  | traverse body tail ihBody ihTail =>
    obtain _ | ⟨hfirst, hs⟩ := hs
    cases hfirst with
    | enter frame =>
      obtain ⟨mid, hbody, hs⟩ := hs.of_append
      obtain rfl := ihBody hbody
      obtain _ | ⟨hlast, htail⟩ := hs
      cases hlast
      exact ihTail htail

end Expands

namespace Combinator

mutual
/-- The traverses of a tree, in preorder: their inner steps and their transforms. -/
def traverses : Combinator → List (List Combinator × Transform Value)
  | .literal _ => []
  | .byteRange .. => []
  | .label inner _ => traversesAll inner
  | .traverse inner f => (inner, f) :: traversesAll inner
  | .compileTraverse inner _ => traversesAll inner

def traversesAll : List Combinator → List (List Combinator × Transform Value)
  | [] => []
  | c :: cs => traverses c ++ traversesAll cs
end

@[simp] lemma traversesAll_append (cs ds : List Combinator) :
    traversesAll (cs ++ ds) = traversesAll cs ++ traversesAll ds := by
  induction cs with
  | nil => rfl
  | cons c cs ih => simp [traversesAll, ih]

mutual
lemma traverses_of_not_hasTraverse : (c : Combinator) → c.hasTraverse = false → c.traverses = []
  | .literal _, _ => rfl
  | .byteRange .., _ => rfl
  | .label inner _, h => traversesAll_of_not_anyTraverse inner h
  | .traverse .., h => by simp [hasTraverse] at h
  | .compileTraverse inner _, h => traversesAll_of_not_anyTraverse inner h

lemma traversesAll_of_not_anyTraverse :
    (cs : List Combinator) → anyTraverse cs = false → traversesAll cs = []
  | [], _ => rfl
  | c :: cs, h => by
    simp only [anyTraverse, Bool.or_eq_false_iff] at h
    simp [traversesAll, traverses_of_not_hasTraverse c h.1, traversesAll_of_not_anyTraverse cs h.2]
end

end Combinator

def Link.isEnter : Link → Bool
  | enter => true
  | _ => false

@[simp] lemma Link.isEnter_bound (run : List Combinator) : (bound run).isEnter = false := rfl
@[simp] lemma Link.isEnter_enter : enter.isEnter = true := rfl
@[simp] lemma Link.isEnter_exit (f : Transform Value) : (exit f).isEnter = false := rfl

namespace Expands
variable {steps : List Combinator} {links : List Link} (h : Expands steps links)
include h

open Combinator in
lemma countP_isEnter : links.countP Link.isEnter = (traversesAll steps).length := by
  induction h with
  | nil => rfl
  | bound hne hrun hrest tail ih =>
    simpa [traversesAll_of_not_anyTraverse _ hrun] using ih
  | label hinner body ih => simpa [traversesAll, traverses] using ih
  | traverse body tail ihBody ihTail =>
    simp [List.countP_cons, ihBody, ihTail, traversesAll, traverses]

open Combinator in
/-- The entry of the k-th traverse is the k-th entry, and its exit stands behind the links of its
inner steps. -/
theorem exists_brackets {k : Nat} {inner : List Combinator} {f : Transform Value}
    (hk : (traversesAll steps)[k]? = some (inner, f)) : ∃ before body after,
      links = before ++ .enter :: (body ++ .exit f :: after) ∧
        before.countP Link.isEnter = k ∧ Expands inner body := by
  induction h generalizing k with
  | nil => simp [traversesAll] at hk
  | @bound run rest links hne hrun hrest tail ih =>
    rw [traversesAll_append, traversesAll_of_not_anyTraverse run hrun, List.nil_append] at hk
    obtain ⟨before, body, after, rfl, hcount, hbody⟩ := ih hk
    exact ⟨.bound run :: before, body, after, rfl, by simpa using hcount, hbody⟩
  | label hinner body ih => exact ih (by simpa [traversesAll, traverses] using hk)
  | @traverse inner' rest g ls ms body tail ihBody ihTail =>
    have hentries := body.countP_isEnter
    rw [traversesAll, traverses, List.cons_append] at hk
    cases k with
    | zero =>
      obtain ⟨rfl, rfl⟩ : inner' = inner ∧ g = f := by simpa using hk
      exact ⟨[], ls, ms, rfl, rfl, body⟩
    | succ k =>
      rw [List.getElem?_cons_succ] at hk
      -- In preorder the traverses within this one come before those behind it.
      by_cases hlt : k < (traversesAll inner').length
      · rw [List.getElem?_append_left hlt] at hk
        obtain ⟨before, nested, after, rfl, hcount, hnested⟩ := ihBody hk
        refine ⟨.enter :: before, nested, after ++ .exit g :: ms, by simp, ?_, hnested⟩
        rw [List.countP_cons_of_pos rfl, hcount]
      · rw [List.getElem?_append_right (Nat.le_of_not_lt hlt)] at hk
        obtain ⟨before, nested, after, rfl, hcount, hnested⟩ := ihTail hk
        refine ⟨.enter :: (ls ++ .exit g :: before), nested, after, by simp, ?_, hnested⟩
        rw [List.countP_cons_of_pos rfl, List.countP_append, List.countP_cons_of_neg (by simp),
          hentries, hcount]
        omega

end Expands

namespace Procedure

/-- The procedure begins a traverse: it saves the accumulator and hands over an empty one. -/
def isEntry (d : Procedure) : Bool :=
  match d.body with
  | .invoke _ .empty .push _ => true
  | _ => false

/-- The procedure ends a traverse: it merges the accumulator with the frame that it takes. -/
def isExit (d : Procedure) : Bool :=
  match d.stack, d.body with
  | .saved, .invoke _ (.merge _) .pop _ => true
  | _, _ => false

end Procedure

namespace Link
variable (base : String) (step : Nat)

@[simp] lemma isEntry_procedure (l : Link) : (l.procedure base step).isEntry = l.isEnter := by
  cases l with
  | bound run =>
    simp only [Procedure.isEntry, procedure, Segment.link, AccUpdate.ofTerms]
    split <;> simp_all
  | enter => rfl
  | exit f => rfl

lemma countP_isEntry (ls : List Link) :
    (procedures base step ls).countP Procedure.isEntry = ls.countP isEnter := by
  induction ls generalizing step with
  | nil => rfl
  | cons l ls ih => simp [List.countP_cons, ih]

/-- The rise of links is the number of entries among them, less that of exits. -/
lemma height_eq_countP (ls : List Link) : height ls =
    (procedures base step ls).countP Procedure.isEntry -
      (procedures base step ls).countP Procedure.isExit := by
  induction ls generalizing step with
  | nil => rfl
  | cons l ls ih =>
    rw [height_cons, ih (step + 1), procedures_cons, List.countP_cons, List.countP_cons,
      isEntry_procedure]
    cases l with
    | bound run => simp [rise, Procedure.isExit, procedure, Segment.link]
    | enter =>
      simp [rise, Procedure.isExit, procedure, enterLink]
      omega
    | exit f =>
      simp [rise, Procedure.isExit, procedure, exitLink]
      omega

end Link

namespace Program
variable {name : String} {start : Position} {links : List Link} {s t : State}

/-- A link of the program of links comes from one of these, or is the success behind them. -/
lemma links_ofLinks_cases {i : Nat} {d : Procedure}
    (h : (ofLinks name start links).links[i]? = some d) :
    (∃ l, links[i]? = some l ∧ d = l.procedure name i) ∨
      i = links.length ∧ d = successLink name i := by
  rcases Nat.lt_or_ge i links.length with hlt | hge
  · have hl := List.getElem?_eq_getElem hlt
    exact .inl ⟨_, hl, Option.some.inj (h.symm.trans (links_ofLinks_getElem? hl))⟩
  · have hlen := (isChain_ofLinks name start links).length_links
    have hi := (List.getElem?_eq_some_iff.mp h).1
    obtain rfl : i = links.length := by omega
    have hsuccess := (builtFrom_ofLinks name start links).success
    exact .inr ⟨rfl, Option.some.inj (h.symm.trans hsuccess)⟩

/-- A link hands over to the next one, and does to the stack what is in its kind, or it falls back
and leaves the stack as it was. -/
theorem shifts_of_turn {i : Nat} (hs : s.current = .link name i)
    (h : (ofLinks name start links).turn s = .next t) : ∃ l, links[i]? = some l ∧
      ((t.current = .link name (i + 1) ∧ l.Shifts s.stack t.stack) ∨
        ((l.procedure name i).fallback = some t.current ∧ t.stack = s.stack)) := by
  have hchain := isChain_ofLinks name start links
  obtain ⟨d, hd, hname, hover⟩ := exists_handsOver h
  have hlink := hchain.getElem?_links hd (hname.trans hs)
  obtain ⟨l, hl, rfl⟩ | ⟨-, rfl⟩ := links_ofLinks_cases hlink
  · refine ⟨l, hl, ?_⟩
    cases hover with
    | refused hfall => exact .inr ⟨hfall, rfl⟩
    | matched hmatch hbody hacc hmove =>
      refine .inl ⟨?_, ?_⟩
      · have htarget := l.target_procedure name i
        rw [hbody] at htarget
        exact Option.some.inj htarget
      · have hstack := hmatch.stack
        cases l with
        | bound run =>
          obtain ⟨-, -, rfl, -⟩ := Body.invoke.inj hbody
          obtain ⟨-, rfl⟩ := Prod.mk.inj (Option.some.inj hstack)
          exact .bound run s.stack
        | enter =>
          obtain ⟨-, -, rfl, -⟩ := Body.invoke.inj hbody
          obtain ⟨-, rfl⟩ := Prod.mk.inj (Option.some.inj hstack)
          exact .enter s.acc s.stack
        | exit f =>
          obtain ⟨-, -, rfl, -⟩ := Body.invoke.inj hbody
          simp only [Link.procedure, exitLink] at hstack
          cases hframes : s.stack with
          | nil => simp [hframes, StackPattern.take] at hstack
          | cons frame frames =>
            rw [hframes] at hstack
            obtain ⟨-, rfl⟩ := Prod.mk.inj (Option.some.inj hstack)
            exact .exit f frame frames
  · cases hover with
    | refused hfall => simp [successLink] at hfall
    | matched hmatch hbody hacc hmove => simp [successLink] at hbody

/-- A walk ends at what a link falls back on. -/
lemma eq_of_walk_fallback {i : Nat} {l : Link} (hl : links[i]? = some l)
    (hs : (l.procedure name i).fallback = some s.current) {visits : List Visit}
    (h : (ofLinks name start links).Walk s visits t) : t = s := by
  have hlink : (ofLinks name start links).links[i]? = some (l.procedure name i) :=
    links_ofLinks_getElem? hl
  have hmem := IsChain.mem_procedures (List.mem_of_getElem? hlink)
  obtain ⟨reason, hturn⟩ := (isChain_ofLinks name start links).turn_fallback hmem hs
  cases h with
  | stay => rfl
  | turn hnext tail => simp [hturn] at hnext

/-- A walk from a link is at a later link or at what that one falls back on, and the links before
that one have made of the stack what it is. -/
theorem stacks_of_walk {m : Nat} (hs : s.current = .link name m) (hm : m ≤ links.length)
    {visits : List Visit} (h : (ofLinks name start links).Walk s visits t) :
    ∃ i, m + i ≤ links.length ∧ Link.Stacks ((links.drop m).take i) s.stack t.stack ∧
      (t.current = .link name (m + i) ∨ ∃ l, links[m + i]? = some l ∧
        (l.procedure name (m + i)).fallback = some t.current) := by
  induction h generalizing m with
  | stay s => exact ⟨0, hm, .nil s.stack, .inl hs⟩
  | @turn s t u visits hturn tail ih =>
    obtain ⟨l, hl, ⟨ht, hshift⟩ | ⟨hfall, hstack⟩⟩ := shifts_of_turn hs hturn
    · have hlt := (List.getElem?_eq_some_iff.mp hl).1
      obtain ⟨i, hi, hstacks, hend⟩ := ih ht hlt
      have hdrop : (links.drop m).take (i + 1) = l :: (links.drop (m + 1)).take i := by
        rw [List.drop_eq_getElem_cons hlt, List.take_succ_cons,
          (List.getElem?_eq_some_iff.mp hl).2]
      rw [Nat.add_right_comm] at hi hend
      exact ⟨i + 1, hi, hdrop ▸ .cons hshift hstacks, hend⟩
    · -- The catch-all ends the run, so the walk is over as soon as a link refuses.
      obtain rfl := eq_of_walk_fallback hl hfall tail
      exact ⟨0, hm, hstack ▸ .nil _, .inr ⟨l, hl, hfall⟩⟩

/-- A walk from one link to another comes by every link between them. -/
theorem exists_walk_through {m n k : Nat} (hs : s.current = .link name m)
    (ht : t.current = .link name n) (hmk : m ≤ k) (hkn : k ≤ n) {visits : List Visit}
    (h : (ofLinks name start links).Walk s visits t) : ∃ before after u,
      visits = before ++ after ∧ (ofLinks name start links).Walk s before u ∧
        u.current = .link name k ∧ (ofLinks name start links).Walk u after t := by
  induction h generalizing m with
  | stay s =>
    have hmn : m = n := (Name.mk.inj (hs.symm.trans ht)).2.1
    obtain rfl : k = m := by omega
    exact ⟨[], [], s, rfl, .stay s, hs, .stay s⟩
  | @turn s v t visits hturn tail ih =>
    by_cases heq : k = m
    · exact ⟨[], s.visit :: visits, s, rfl, .stay s, heq ▸ hs, .turn hturn tail⟩
    · obtain ⟨l, hl, ⟨hv, -⟩ | ⟨hfall, -⟩⟩ := shifts_of_turn hs hturn
      · obtain ⟨before, after, u, rfl, hbefore, hu, hafter⟩ := ih hv ht (by omega)
        exact ⟨s.visit :: before, after, u, rfl, .turn hturn hbefore, hu, hafter⟩
      · obtain rfl := eq_of_walk_fallback hl hfall tail
        simp [Link.fallback_procedure, ht, Name.catchAll, Name.link] at hfall

lemma take_links_ofLinks {i : Nat} (hi : i ≤ links.length) :
    (ofLinks name start links).links.take i = Link.procedures name 0 (links.take i) := by
  rw [links_ofLinks, List.take_append_of_le_length (by simpa using hi)]
  apply List.ext_getElem?
  intro j
  rw [List.getElem?_take, Link.procedures_getElem?, Link.procedures_getElem?, List.getElem?_take]
  split <;> rfl

/-- A traverse between two links: what it saves of the accumulator is what it goes on with, in
whatever way the run came to its end. -/
structure Encloses (p : Program) (first last : Nat) (f : Transform Value) : Prop where
  entry : p.links[first]? = some (enterLink p.name first)
  exit : p.links[last]? = some (exitLink p.name last f)
  saves : ∀ s : State, s.current = .link p.name first → p.turn s =
    .next ⟨.link p.name (first + 1), s.rest, [], s.acc :: s.stack, s.position⟩
  entered : ∀ (input : List UInt8) (visits : List Visit) (t : State),
    p.Walk (p.initial input) visits t → t.current = .link p.name last → ∃ before after s,
      visits = before ++ after ∧ p.Walk (p.initial input) before s ∧
        s.current = .link p.name first ∧ p.Walk s after t
  restores : ∀ (s : State) (visits : List Visit) (t : State), s.current = .link p.name first →
    p.Walk s visits t → t.current = .link p.name last → t.stack = s.acc :: s.stack ∧
      p.turn t = .next ⟨.link p.name (last + 1), t.rest,
        (f.apply t.acc.reverse).reverse ++ s.acc, s.stack, t.position⟩

lemma turn_of_enter {i : Nat} (hl : links[i]? = some .enter) (hs : s.current = .link name i) :
    (ofLinks name start links).turn s =
      .next ⟨.link name (i + 1), s.rest, [], s.acc :: s.stack, s.position⟩ := by
  have hlink : (ofLinks name start links).links[i]? = some (enterLink name i) :=
    links_ofLinks_getElem? hl
  have hmem := IsChain.mem_procedures (List.mem_of_getElem? hlink)
  obtain ⟨current, rest, acc, stack, position⟩ := s
  obtain rfl : current = .link name i := hs
  rw [turn_of_mem (isChain_ofLinks name start links).names_nodup hmem rfl]
  exact Link.turn_enter ⟨rest, position, i⟩ acc stack

lemma turn_of_exit {i : Nat} {f : Transform Value} {frame : List Value}
    {frames : List (List Value)} (hl : links[i]? = some (.exit f))
    (hs : s.current = .link name i) (hstack : s.stack = frame :: frames) :
    (ofLinks name start links).turn s = .next ⟨.link name (i + 1), s.rest,
      (f.apply s.acc.reverse).reverse ++ frame, frames, s.position⟩ := by
  have hlink : (ofLinks name start links).links[i]? = some (exitLink name i f) :=
    links_ofLinks_getElem? hl
  have hmem := IsChain.mem_procedures (List.mem_of_getElem? hlink)
  obtain ⟨current, rest, acc, stack, position⟩ := s
  obtain rfl : current = .link name i := hs
  obtain rfl : stack = frame :: frames := hstack
  rw [turn_of_mem (isChain_ofLinks name start links).names_nodup hmem rfl]
  exact Link.turn_exit f ⟨rest, position, i⟩ acc frame frames

/-- Behind the links of inner steps the frame that was pushed in front of them is on top. -/
lemma frame_of_walk {inner : List Combinator} {before body after : List Link}
    (hbody : Expands inner body) (hlinks : links = before ++ .enter :: (body ++ after))
    (hs : s.current = .link name before.length)
    (ht : t.current = .link name (before.length + 1 + body.length)) {visits : List Visit}
    (h : (ofLinks name start links).Walk s visits t) : t.stack = s.acc :: s.stack := by
  have hfirst : links[before.length]? = some .enter := by simp [hlinks]
  have hlt := (List.getElem?_eq_some_iff.mp hfirst).1
  cases h with
  | stay =>
    have hsame := (Name.mk.inj (hs.symm.trans ht)).2.1
    omega
  | turn hturn tail =>
    obtain rfl := Turn.next.inj ((turn_of_enter hfirst hs).symm.trans hturn)
    obtain ⟨i, -, hstacks, hend | ⟨l, -, hfall⟩⟩ := stacks_of_walk rfl hlt tail
    · have hi : i = body.length := by
        have hsame := (Name.mk.inj (hend.symm.trans ht)).2.1
        omega
      have htake : (links.drop (before.length + 1)).take i = body := by
        simp [hlinks, hi, List.drop_append, List.drop_of_length_le]
      exact hbody.stack_eq (htake ▸ hstacks)
    · simp [Link.fallback_procedure, ht, Name.catchAll, Name.link] at hfall

/-- The links of inner steps are enclosed by the two around them. -/
theorem encloses_ofLinks {inner : List Combinator} {f : Transform Value}
    {before body after : List Link} (hbody : Expands inner body)
    (hlinks : links = before ++ .enter :: (body ++ .exit f :: after)) :
    (ofLinks name start links).Encloses before.length (before.length + 1 + body.length) f := by
  have hfirst : links[before.length]? = some .enter := by simp [hlinks]
  have hlast : links[before.length + 1 + body.length]? = some (.exit f) := by
    simp [hlinks, Nat.add_assoc, Nat.add_comm 1]
  constructor
  case entry => exact links_ofLinks_getElem? hfirst
  case exit => exact links_ofLinks_getElem? hlast
  case saves => exact fun s hs => turn_of_enter hfirst hs
  case entered =>
    intro input visits t hwalk ht
    have hstart : ((ofLinks name start links).initial input).current = .link name 0 := rfl
    exact exists_walk_through hstart ht (Nat.zero_le _) (by omega) hwalk
  case restores =>
    intro s visits t hs hwalk ht
    have hframe := frame_of_walk hbody hlinks hs ht hwalk
    exact ⟨hframe, turn_of_exit hlast ht hframe⟩

end Program

namespace Combinator

/-- The number of traverses that are open where each link stands, and none where the success
does. -/
def openAt (steps : List Combinator) : List Nat :=
  (Link.split (flattenAll 0 steps)).map Prod.fst ++ [0]

lemma openAt_getElem? {steps : List Combinator} {links : List Link} (h : Expands steps links)
    {i k : Nat} (hi : i ≤ links.length) (hk : (k : Int) = Link.height (links.take i)) :
    (openAt steps)[i]? = some k := by
  have hlen : (Link.split (flattenAll 0 steps)).length = links.length := by
    rw [← h.map_split 0, List.length_map]
  rcases Nat.lt_or_eq_of_le hi with hlt | rfl
  · have hsplit := List.getElem?_eq_getElem (hlen ▸ hlt)
    have hplaced := congrArg (·[i]?) (h.split_eq 0)
    simp only [List.getElem?_map, hsplit, Option.map_some] at hplaced
    have heq := Link.placed_getElem? hplaced.symm
    rw [openAt, List.getElem?_append_left (by simpa [hlen] using hlt), List.getElem?_map, hsplit]
    simp only [Option.map_some, Option.some.injEq]
    omega
  · rw [List.take_length, h.height_eq] at hk
    simp [openAt, ← hlen]
    omega

example : openAt tangled = [0, 0, 0, 1, 1, 2, 2, 1, 0, 0] := by cbv

end Combinator

/-- A visit is to a link or to what that one falls back on, and the links before that one rise as
high as the stack is deep. -/
lemma Program.exists_height_of_visit {name : String} {start : Position} {links : List Link}
    {fuel : Nat} {input : List UInt8} {v : Visit}
    (hv : v ∈ ((ofLinks name start links).run fuel input).visits) : ∃ i ≤ links.length,
      (v.depth : Int) = Link.height (links.take i) ∧
        (v.name = .link name i ∨
          ∃ l, links[i]? = some l ∧ (l.procedure name i).fallback = some v.name) := by
  obtain ⟨visits, t, hwalk, rfl⟩ := exists_walk_of_mem_visits hv
  obtain ⟨i, hi, hstacks, hend⟩ := stacks_of_walk (m := 0) rfl (Nat.zero_le _) hwalk
  rw [Nat.zero_add] at hi hend
  have hlen := hstacks.length_eq
  exact ⟨i, hi, by simpa [initial, State.visit] using hlen, hend⟩

open Combinator in
/-- In every run of a compiled program the stack is as deep as traverses are open: as many as there
are entries before the link, less the exits, and none before the success. Each traverse has an
entry and an exit around the links of its inner steps, and the frame that the exit takes back is
the accumulator which the entry saved. -/
theorem run_stack_discipline {config : Config} {name : String} {steps : List Combinator}
    {p : Program} (hp : config.compile name steps = .ok p) :
    (∀ (fuel : Nat) (input : List UInt8), ∀ v ∈ (p.run fuel input).visits, ∃ i d,
      p.links[i]? = some d ∧ (v.name = d.name ∨ d.fallback = some v.name) ∧
        (v.depth : Int) = (p.links.take i).countP Procedure.isEntry -
          (p.links.take i).countP Procedure.isExit ∧
        (openAt steps)[i]? = some v.depth ∧ (d.body = .ok → v.depth = 0)) ∧
    ∀ (k : Nat) (inner : List Combinator) (f : Transform Value),
      (traversesAll steps)[k]? = some (inner, f) → ∃ before after,
        links steps = before ++ .enter :: (links inner ++ .exit f :: after) ∧
          (p.links.take before.length).countP Procedure.isEntry = k ∧
          p.Encloses before.length (before.length + 1 + (links inner).length) f := by
  obtain ⟨expanded, hl, rfl⟩ := expands_of_compile hp
  have heq : links steps = expanded := hl.map_split 0
  refine ⟨?_, ?_⟩
  · intro fuel input v hv
    obtain ⟨i, hi, hdepth, hend⟩ := Program.exists_height_of_visit hv
    have hopen := openAt_getElem? hl hi hdepth
    have hcount := hdepth.trans (Link.height_eq_countP name 0 (expanded.take i))
    rw [← Program.take_links_ofLinks hi] at hcount
    rcases Nat.lt_or_eq_of_le hi with hlt | rfl
    · have hlink := List.getElem?_eq_getElem hlt
      refine ⟨i, _, Program.links_ofLinks_getElem? hlink, ?_, hcount, hopen, ?_⟩
      · rcases hend with hname | ⟨l, hl, hfall⟩
        · exact .inl (by rw [hname, Link.name_procedure])
        · obtain rfl := Option.some.inj (hlink.symm.trans hl)
          exact .inr hfall
      · intro hok
        have hnot := expanded[i].isOk_procedure name i
        simp [hok] at hnot
    · have hsuccess := (Program.builtFrom_ofLinks name config.start expanded).success
      refine ⟨_, _, hsuccess, ?_, hcount, hopen, ?_⟩
      · rcases hend with hname | ⟨l, hl, -⟩
        · exact .inl hname
        · simp at hl
      · rw [List.take_length, hl.height_eq] at hdepth
        omega
  · intro k inner f hk
    obtain ⟨before, body, after, hlinks, hcount, hbody⟩ := hl.exists_brackets hk
    have hinner : links inner = body := hbody.map_split 0
    refine ⟨before, after, ?_, ?_, ?_⟩
    · rw [heq, hinner, hlinks]
    · rw [Program.take_links_ofLinks (by simp [hlinks]), Link.countP_isEntry, hlinks,
        List.take_left, hcount]
    · rw [hinner]
      exact Program.encloses_ofLinks hbody hlinks

namespace Combinator

theorem run_stack_discipline_tangled : ∃ p, Config.compile {} "p" tangled = .ok p ∧
    (⟨.link "p" 5, 2⟩ ∈ (p.run 10 [97, 98, 88, 89, 99, 100]).visits ∧ ∃ i d,
      p.links[i]? = some d ∧ (Name.link "p" 5 = d.name ∨ d.fallback = some (.link "p" 5)) ∧
        2 = ((p.links.take i).countP Procedure.isEntry : Int) -
          (p.links.take i).countP Procedure.isExit ∧ (openAt tangled)[i]? = some 2) ∧
    ((traversesAll tangled)[1]? = some ([byte], ⟨"reverse", List.reverse⟩) ∧ ∃ before after,
      links tangled = before ++ .enter :: (links [byte] ++
        .exit ⟨"reverse", List.reverse⟩ :: after) ∧
      p.Encloses before.length (before.length + 1 + (links [byte]).length)
        ⟨"reverse", List.reverse⟩) := by
  have hp := expands_tangled.compile_eq (by simp [tangled]) {} "p"
  obtain ⟨hdepth, hframes⟩ := run_stack_discipline hp
  have hv : ⟨.link "p" 5, 2⟩ ∈ ((Program.ofLinks "p" ({} : Config).start tangledLinks).run 10
      [97, 98, 88, 89, 99, 100]).visits := by decide +kernel
  obtain ⟨i, d, hd, hname, hcount, hopen, -⟩ := hdepth 10 _ _ hv
  obtain ⟨before, after, hlinks, -, hencloses⟩ := hframes 1 [byte] _ rfl
  exact ⟨_, hp, ⟨hv, i, d, hd, hname, hcount, hopen⟩, rfl, before, after, hlinks, hencloses⟩

end Combinator
end ParserChain
