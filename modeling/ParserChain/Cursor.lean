import ParserChain.Counter
import ParserChain.Text.Utf8

/-! Lines and columns. A delta is the movement of one match, and a movement sums a run of them: the
column counts from where it was until a line breaks, and from the line's start after that. Columns
count bytes. Sums are capped when they are built and checked when they are applied. -/
namespace ParserChain

structure Position where
  line : Counter
  column : Counter
  deriving DecidableEq

inductive Delta
  | column (amount : Counter)
  /-- Crosses line breaks and lands on an absolute column. -/
  | line (breaks column : Counter)
  deriving DecidableEq

inductive LineMove
  | incoming
  | advance (amount : Counter)
  deriving DecidableEq

inductive ColumnMove
  | advance (amount : Counter)
  | reset (column : Counter)
  deriving DecidableEq

/-- What becomes of the position when a procedure hands over. -/
structure Movement where
  line : LineMove
  column : ColumnMove
  deriving DecidableEq

def newline : UInt8 := 10

namespace Delta

/-- The bytes that follow the last line break. -/
def lastLine (input : List UInt8) : List UInt8 :=
  (input.reverse.takeWhile (· != newline)).reverse

def ofBytes (input : List UInt8) : Delta :=
  if newline ∈ input then
    .line (Counter.cap (input.count newline))
      (Counter.addCapped (Counter.cap (lastLine input).length) 1)
  else .column (Counter.cap input.length)

def ofLiteral (text : String) : Delta := ofBytes (Utf8.bytes text)

example : ofLiteral "ab" = .column 2 := by decide +kernel
example : ofLiteral "a\n\nbé" = .line 2 4 := by decide +kernel

end Delta

def LineMove.move? : LineMove → Counter → Option Counter
  | .incoming, line => some line
  | .advance n, line => Counter.add? line n

def ColumnMove.move? : ColumnMove → Counter → Option Counter
  | .advance n, column => Counter.add? column n
  | .reset n, _ => some n

namespace Movement

def still : Movement := ⟨.incoming, .advance 0⟩

/-- The position reached, unless a counter overflows. -/
def move? (m : Movement) (p : Position) : Option Position :=
  match m.line.move? p.line, m.column.move? p.column with
  | some line, some column => some ⟨line, column⟩
  | _, _ => none

@[simp] theorem move?_still (p : Position) : still.move? p = some p := by
  have hp := Counter.toNat_le_largest p.column
  have h : Counter.add? p.column 0 = some p.column := by simp [Counter.add?_eq_some]
  simp [still, move?, LineMove.move?, ColumnMove.move?, h]

end Movement

/-- The breaks and the column summed so far; the column is absolute once a break is among them. -/
structure Reach where
  breaks : Counter
  column : Counter
  broken : Bool

namespace Reach

def start : Reach := ⟨0, 0, false⟩

def extend (r : Reach) : Delta → Reach
  | .column n => { r with column := Counter.addCapped r.column n }
  | .line n column => ⟨Counter.addCapped r.breaks n, column, true⟩

def movement (r : Reach) : Movement where
  line := if r.breaks = 0 then .incoming else .advance r.breaks
  column := if r.broken then .reset r.column else .advance r.column

end Reach

/-- The movement of a run of deltas, from left to right. -/
def Movement.ofDeltas (deltas : List Delta) : Movement :=
  (deltas.foldl Reach.extend Reach.start).movement

example : Movement.ofDeltas [.column 3, .line 2 4, .column 1] = ⟨.advance 2, .reset 5⟩ := by
  decide +kernel
example : Movement.ofDeltas [] = Movement.still := by decide +kernel

end ParserChain
