import ParserChain.Combinator

/-! What a run of steps expects, in words, for the reason of a failure. A label speaks for all that
stands inside it, and a traverse says what its inner steps say. -/
namespace ParserChain.Combinator

/-- The words for a unit and the ranges it may lie in. -/
def describeUnit (ranges : List Range) (modifiers : List Modifier) : String :=
  let noun := if (Shape.ofModifiers modifiers).utf8 then "a utf8 codepoint" else "a byte"
  if ranges.isEmpty then noun
  else noun ++ " in the range " ++ ", ".intercalate (ranges.map Range.text)

/-- Descriptions in order of matching; an empty one says nothing and is left out. -/
def followedBy (descriptions : List String) : String :=
  ", followed by ".intercalate (descriptions.filter (!·.isEmpty))

mutual
/-- Empty for a step that describes nothing. -/
def describe : Combinator → String
  | .literal text => "a literal " ++ quote text
  | .byteRange ranges modifiers => describeUnit ranges modifiers
  | .label _ text => text
  | .traverse inner _ => followedBy (describeAll inner)
  | .compileTraverse inner _ => followedBy (describeAll inner)

def describeAll : List Combinator → List String
  | [] => []
  | c :: cs => describe c :: describeAll cs
end

def expected (steps : List Combinator) : String := "expected " ++ followedBy (describeAll steps)

theorem describeAll_eq_map (cs : List Combinator) : describeAll cs = cs.map describe := by
  induction cs with
  | nil => rfl
  | cons c cs ih => simp [describeAll, ih]

example : expected [.literal "a", .label [] "", .byteRange [⟨48, 57⟩] []] =
    "expected a literal \"a\", followed by a byte in the range '0'..'9'" := by decide +kernel

end ParserChain.Combinator
