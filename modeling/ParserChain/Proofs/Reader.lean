import ParserChain.Capture.Decode
import ParserChain.Proofs.Movement
import ParserChain.Proofs.Rewrite

/-! A reader of steps that knows no segments. It goes through the tree leaf by leaf, from left to
right, and moves the position behind each of them. What it reads is the leaves in a row; what it
yields is what the tree makes of their values. -/
namespace ParserChain

/-- Where a reader stands. -/
structure Cursor where
  rest : List UInt8
  position : Position
  /-- The number of leaves, or of links, behind it. -/
  index : Nat
  deriving DecidableEq

inductive Reading (α : Type)
  | read (value : α) (next : Cursor)
  /-- In front of a leaf that does not match. -/
  | failed (place : Cursor)
  /-- Behind a leaf, the line or the column does not fit a counter. -/
  | overflow
  deriving DecidableEq

namespace Reading

def map {α β : Type} (f : α → β) : Reading α → Reading β
  | read value next => read (f value) next
  | failed place => failed place
  | overflow => overflow

def andThen {α β : Type} (r : Reading α) (f : α → Cursor → Reading β) : Reading β :=
  match r with
  | read value next => f value next
  | failed place => failed place
  | overflow => overflow

@[simp] lemma map_map {α β γ : Type} (f : α → β) (g : β → γ) (r : Reading α) :
    (r.map f).map g = r.map fun x => g (f x) := by cases r <;> rfl

@[simp] lemma map_id {α : Type} (r : Reading α) : (r.map fun x => x) = r := by cases r <;> rfl

lemma map_andThen {α β γ : Type} (f : α → β) (r : Reading α) (g : β → Cursor → Reading γ) :
    (r.map f).andThen g = r.andThen fun x next => g (f x) next := by cases r <;> rfl

lemma andThen_map {α β γ : Type} (f : β → γ) (r : Reading α) (g : α → Cursor → Reading β) :
    (r.andThen g).map f = r.andThen fun x next => (g x next).map f := by cases r <;> rfl

lemma andThen_andThen {α β γ : Type} (r : Reading α) (f : α → Cursor → Reading β)
    (g : β → Cursor → Reading γ) :
    (r.andThen f).andThen g = r.andThen fun x next => (f x next).andThen g := by cases r <;> rfl

lemma map_eq_read {α β : Type} {f : α → β} {r : Reading α} {y : β} {next : Cursor} :
    r.map f = read y next ↔ ∃ x, r = read x next ∧ f x = y := by
  cases r <;> simp [map, and_comm]

lemma map_eq_failed {α β : Type} {f : α → β} {r : Reading α} {place : Cursor} :
    r.map f = failed place ↔ r = failed place := by cases r <;> simp [map]

lemma andThen_eq_read {α β : Type} {r : Reading α} {f : α → Cursor → Reading β} {y : β}
    {next : Cursor} :
    r.andThen f = read y next ↔ ∃ x mid, r = read x mid ∧ f x mid = read y next := by
  cases r <;> simp [andThen]

lemma andThen_eq_failed {α β : Type} {r : Reading α} {f : α → Cursor → Reading β}
    {place : Cursor} :
    r.andThen f = failed place ↔
      r = failed place ∨ ∃ x mid, r = read x mid ∧ f x mid = failed place := by
  cases r <;> simp [andThen]

end Reading

/-- Two readers stand at one place, whatever each of them counts. -/
structure Cursor.Meets (c d : Cursor) : Prop where
  rest : c.rest = d.rest
  position : c.position = d.position

namespace Leaf

/-- The value at the front of the input and what is behind it; ranges are not looked at. -/
def take? (input : List UInt8) : Leaf → Option (Value × List UInt8)
  | literal text => ((Utf8.bytes text).isPrefixOf? input).map (.str text, ·)
  | unit _ modifiers =>
    match (Shape.ofModifiers modifiers).decode input with
    | .ok (some (value, width)) => some (.int value, input.drop width)
    | _ => none

/-- Some range holds the value, if there are ranges. -/
def accepts : Leaf → Value → Bool
  | unit ranges _, .int value => ranges.isEmpty || ranges.any (·.contains value)
  | _, _ => true

def read (l : Leaf) (c : Cursor) : Reading Value :=
  match l.take? c.rest with
  | none => .failed c
  | some (value, rest) =>
    if l.accepts value then
      match l.move? c.position with
      | none => .overflow
      | some position => .read value ⟨rest, position, c.index + 1⟩
    else .failed c

lemma read_eq_read {l : Leaf} {c next : Cursor} {v : Value} (h : l.read c = .read v next) :
    l.take? c.rest = some (v, next.rest) ∧ l.accepts v = true ∧
      l.move? c.position = some next.position ∧ next.index = c.index + 1 := by
  unfold read at h
  cases ht : l.take? c.rest with
  | none => simp [ht] at h
  | some taken =>
    obtain ⟨w, rest⟩ := taken
    cases ha : l.accepts w with
    | false => simp [ht, ha] at h
    | true =>
      cases hm : l.move? c.position with
      | none => simp [ht, ha, hm] at h
      | some position =>
        obtain ⟨rfl, rfl⟩ : w = v ∧ ⟨rest, position, c.index + 1⟩ = next := by
          simpa [ht, ha, hm] using h
        exact ⟨rfl, ha, rfl, rfl⟩

lemma read_eq_failed {l : Leaf} {c place : Cursor} (h : l.read c = .failed place) :
    c = place ∧ ∀ v rest, l.take? c.rest = some (v, rest) → l.accepts v = false := by
  unfold read at h
  cases ht : l.take? c.rest with
  | none => exact ⟨by simpa [ht] using h, by simp⟩
  | some taken =>
    obtain ⟨w, rest⟩ := taken
    cases ha : l.accepts w with
    | false => exact ⟨by simpa [ht, ha] using h, by simp [ha]⟩
    | true => cases hm : l.move? c.position <;> simp [ht, ha, hm] at h

end Leaf

namespace Combinator
variable (meaning : Transform Term → List Value → List Value)

mutual
/-- Reads one step. Its values are in matched order, and a rewrite has its meaning on values. -/
def parse : Combinator → Cursor → Reading (List Value)
  | .literal text, c => ((Leaf.literal text).read c).map ([·])
  | .byteRange ranges modifiers, c => ((Leaf.unit ranges modifiers).read c).map ([·])
  | .label inner _, c => parseAll inner c
  | .traverse inner f, c => (parseAll inner c).map f.apply
  | .compileTraverse inner f, c => (parseAll inner c).map (meaning f)

def parseAll : List Combinator → Cursor → Reading (List Value)
  | [], c => .read [] c
  | s :: ss, c => (parse s c).andThen fun vs next => (parseAll ss next).map (vs ++ ·)
end

end Combinator

/-- Reads leaves in a row. -/
def scan : List Leaf → Cursor → Reading (List Value)
  | [], c => .read [] c
  | l :: ls, c => (l.read c).andThen fun v next => (scan ls next).map (v :: ·)

lemma scan_append (ls ms : List Leaf) (c : Cursor) :
    scan (ls ++ ms) c = (scan ls c).andThen fun vs next => (scan ms next).map (vs ++ ·) := by
  induction ls generalizing c with
  | nil => simp [scan, Reading.andThen]
  | cons l ls ih =>
    simp only [List.cons_append, scan, ih, Reading.andThen_map, Reading.andThen_andThen,
      Reading.map_andThen, Reading.map_map]

lemma length_of_scan {ls : List Leaf} {c next : Cursor} {vs : List Value}
    (h : scan ls c = .read vs next) : vs.length = ls.length := by
  induction ls generalizing c vs with
  | nil =>
    obtain ⟨rfl, -⟩ : [] = vs ∧ c = next := by simpa [scan] using h
    rfl
  | cons l ls ih =>
    rw [scan, Reading.andThen_eq_read] at h
    obtain ⟨v, mid, -, htail⟩ := h
    obtain ⟨ws, hws, rfl⟩ := Reading.map_eq_read.mp htail
    simp [ih hws]

namespace Combinator
variable (meaning : Transform Term → List Value → List Value)

mutual
/-- A step reads its leaves in a row, and yields what it makes of their values. -/
theorem parse_eq_scan : (s : Combinator) → (c : Cursor) →
    s.parse meaning c = (scan s.leaves c).map (s.eval meaning)
  | .literal text, c => by
    cases h : (Leaf.literal text).read c <;> simp [parse, leaves, scan, h, Reading.map,
      Reading.andThen, eval]
  | .byteRange ranges modifiers, c => by
    cases h : (Leaf.unit ranges modifiers).read c <;> simp [parse, leaves, scan, h, Reading.map,
      Reading.andThen, eval]
  | .label inner text, c => by
    rw [parse, leaves, parseAll_eq_scan inner c]
    rfl
  | .traverse inner f, c => by
    rw [parse, leaves, parseAll_eq_scan inner c, Reading.map_map]
    rfl
  | .compileTraverse inner f, c => by
    rw [parse, leaves, parseAll_eq_scan inner c, Reading.map_map]
    rfl

theorem parseAll_eq_scan : (ss : List Combinator) → (c : Cursor) →
    parseAll meaning ss c = (scan (leavesAll ss) c).map (evalAll meaning ss)
  | [], c => rfl
  | s :: ss, c => by
    rw [parseAll, leavesAll, scan_append, parse_eq_scan s c]
    cases hs : scan s.leaves c with
    | failed place => rfl
    | overflow => rfl
    | read vs next =>
      have hlen := length_of_scan hs
      simp only [Reading.map, Reading.andThen]
      rw [parseAll_eq_scan ss next]
      cases scan (leavesAll ss) next <;> simp [Reading.map, evalAll, ← hlen]
end

end Combinator
end ParserChain
