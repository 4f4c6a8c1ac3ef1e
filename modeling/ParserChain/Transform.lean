/-! Named functions on lists of outputs, given and answered in matched order. The name is the
identity of a transform: two with one name count as equal. -/
namespace ParserChain

structure Transform (α : Type) where
  name : String
  apply : List α → List α

instance {α : Type} : BEq (Transform α) := ⟨fun f g => f.name == g.name⟩

@[simp] theorem Transform.beq_iff {α : Type} {f g : Transform α} :
    (f == g) = true ↔ f.name = g.name := by
  change (f.name == g.name) = true ↔ _
  exact beq_iff_eq

end ParserChain
