import ParserChain.Combinator

/-! Combinators written out as constructor terms on one line, the form in which a message shows the
step that it is about. -/
namespace ParserChain

/-- Items between square brackets. -/
def bracketed (items : List String) : String := "[" ++ ", ".intercalate items ++ "]"

def Range.written (r : Range) : String :=
  "Range \x7b min: " ++ r.min.repr ++ ", max: " ++ r.max.repr ++ " \x7d"

def Modifier.written : Modifier → String
  | .size bits => "Size(" ++ bits.repr ++ ")"
  | .signed => "Signed"
  | .unsigned => "Unsigned"
  | .little => "Little"
  | .big => "Big"
  | .utf8 => "Utf8"

def Transform.written {α : Type} (f : Transform α) : String := "Transform(" ++ quote f.name ++ ")"

namespace Combinator

mutual
def written : Combinator → String
  | .literal text => "Literal(" ++ quote text ++ ")"
  | .byteRange ranges modifiers =>
    "ByteRange \x7b ranges: " ++ bracketed (ranges.map Range.written) ++ ", modifiers: " ++
      bracketed (modifiers.map Modifier.written) ++ " \x7d"
  | .label inner text =>
    "Label \x7b inner: " ++ bracketed (writtenAll inner) ++ ", label: " ++ quote text ++ " \x7d"
  | .traverse inner f =>
    "Traverse \x7b inner: " ++ bracketed (writtenAll inner) ++ ", transform: " ++
      f.written ++ " \x7d"
  | .compileTraverse inner f =>
    "CompileTraverse \x7b inner: " ++ bracketed (writtenAll inner) ++ ", transform: " ++
      f.written ++ " \x7d"

def writtenAll : List Combinator → List String
  | [] => []
  | c :: cs => written c :: writtenAll cs
end

theorem writtenAll_eq_map (cs : List Combinator) : writtenAll cs = cs.map written := by
  induction cs with
  | nil => rfl
  | cons c cs ih => simp [writtenAll, ih]

end Combinator
end ParserChain
