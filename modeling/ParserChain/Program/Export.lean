import ParserChain.Document
import ParserChain.Program

/-! Programs as documents, for tools that write them out in another form. Every choice is tagged by
its kind; names are given by their text and transforms by their name. -/
namespace ParserChain

/-- An object whose first field says which choice it is. -/
def Document.tagged (key tag : String) (fields : List (String × Document)) : Document :=
  .object ((key, .str tag) :: fields)

def Document.ofNat (n : Nat) : Document := .int n
def Document.ofCounter (n : Counter) : Document := .ofNat n.toNat

mutual
def Value.document : Value → Document
  | .str s => .str s
  | .int n => .int n
  | .list items => .list (Value.documents items)

def Value.documents : List Value → List Document
  | [] => []
  | v :: vs => v.document :: Value.documents vs
end

mutual
def Term.document : Term → Document
  | .str s => .object [("Str", .str s)]
  | .int n => .object [("Int", .int n)]
  | .capture var => .object [("Capture", .ofNat var)]
  | .list items => .object [("List", .list (Term.documents items))]

def Term.documents : List Term → List Document
  | [] => []
  | t :: ts => t.document :: Term.documents ts
end

mutual
def Guard.document : Guard → Document
  | .always => .tagged "op" "always" []
  | .eq var value => .tagged "op" "eq" [("var", .ofNat var), ("value", .int value)]
  | .between var min max =>
    .tagged "op" "between" [("var", .ofNat var), ("min", .int min), ("max", .int max)]
  | .any guards => .tagged "op" "any" [("guards", .list (Guard.documents guards))]
  | .all guards => .tagged "op" "all" [("guards", .list (Guard.documents guards))]

def Guard.documents : List Guard → List Document
  | [] => []
  | g :: gs => g.document :: Guard.documents gs
end

theorem Value.documents_eq_map (vs : List Value) : documents vs = vs.map document := by
  induction vs with
  | nil => rfl
  | cons v vs ih => simp [documents, ih]

theorem Term.documents_eq_map (ts : List Term) : documents ts = ts.map document := by
  induction ts with
  | nil => rfl
  | cons t ts ih => simp [documents, ih]

theorem Guard.documents_eq_map (gs : List Guard) : documents gs = gs.map document := by
  induction gs with
  | nil => rfl
  | cons g gs ih => simp [documents, ih]

def Name.document (n : Name) : Document := .str n.text

def Shape.document (s : Shape) : Document :=
  .object [("bits", .ofNat s.bits), ("signed", .bool s.signed), ("little", .bool s.little),
    ("utf8", .bool s.utf8)]

def Pattern.document : Pattern → Document
  | .literal text => .tagged "kind" "literal" [("text", .str text)]
  | .capture var shape => .tagged "kind" "capture" [("var", .ofNat var), ("shape", shape.document)]

def StackPattern.document : StackPattern → Document
  | .any => .str "any"
  | .saved => .str "saved"

def AccUpdate.document : AccUpdate → Document
  | .keep => .tagged "kind" "keep" []
  | .prepend terms => .tagged "kind" "prepend" [("value", .list (Term.documents terms))]
  | .empty => .tagged "kind" "empty" []
  | .merge f => .tagged "kind" "merge" [("value", .str f.name)]

def StackUpdate.document : StackUpdate → Document
  | .keep => .str "keep"
  | .push => .str "push"
  | .pop => .str "pop"

def LineMove.document : LineMove → Document
  | .incoming => .tagged "kind" "incoming" []
  | .advance n => .tagged "kind" "advance" [("by", .ofCounter n)]

def ColumnMove.document : ColumnMove → Document
  | .advance n => .tagged "kind" "advance" [("to", .ofCounter n)]
  | .reset n => .tagged "kind" "reset" [("to", .ofCounter n)]

def Body.document : Body → Document
  | .invoke target acc stack move =>
    .tagged "kind" "invoke" [("target", target.document), ("acc", acc.document),
      ("stack", stack.document), ("line", move.line.document), ("column", move.column.document)]
  | .ok => .tagged "kind" "ok" []
  | .error reason => .tagged "kind" "error" [("reason", .str reason)]

/-- The field of a fallback; a procedure without one has no such field. -/
def Procedure.fallbackField : Option Name → List (String × Document)
  | none => []
  | some name => [("fallback", name.document)]

def Procedure.document (p : Procedure) : Document :=
  .object ([("name", p.name.document),
    ("params", .object [("input", .list (p.input.map Pattern.document)),
      ("stack", p.stack.document)]),
    ("guard", p.guard.document), ("body", p.body.document)] ++ fallbackField p.fallback)

def Entry.document (e : Entry) : Document :=
  .object [("target", e.target.document), ("line", .ofCounter e.start.line),
    ("column", .ofCounter e.start.column)]

def Program.document (p : Program) : Document :=
  .object [("name", .str p.name), ("entry", p.entry.document),
    ("procedures", .list (p.procedures.map Procedure.document))]

/-- The indented text of the document of a program. -/
def Program.toJson (p : Program) : String := p.document.text

end ParserChain
