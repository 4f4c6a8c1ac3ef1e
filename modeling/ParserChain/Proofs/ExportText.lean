import ParserChain.Program.Export
import ParserChain.Proofs.DocumentText

/-! What the text of a program tells. The tag of every choice is read back, and a name from its
text; so programs have one text just when they are equal, where transforms of one name count as
equal. -/
namespace ParserChain

namespace Document

@[simp] lemma tagged_inj {key tag tag' : String} {fs gs : List (String × Document)} :
    tagged key tag fs = tagged key tag' gs ↔ tag = tag' ∧ fs = gs := by
  simp [tagged]

@[simp] lemma ofNat_inj {m n : Nat} : Document.ofNat m = .ofNat n ↔ m = n := by
  simp [Document.ofNat]

@[simp] lemma ofCounter_inj {m n : Counter} : ofCounter m = ofCounter n ↔ m = n := by
  simp [ofCounter, UInt32.toNat_inj]

/-- Lists have the same documents just when they are equal item by item. -/
lemma map_eq_iff_beq {α : Type} [BEq α] {f : α → Document}
    (h : ∀ a b, f a = f b ↔ (a == b) = true) {as bs : List α} :
    as.map f = bs.map f ↔ (as == bs) = true := by
  induction as generalizing bs with
  | nil => cases bs <;> simp
  | cons a as ih =>
    cases bs with
    | nil => simp
    | cons b bs => simp [h, ih]

end Document

namespace Term

mutual
lemma document_inj : (t u : Term) → t.document = u.document ↔ t = u
  | .str _, u => by cases u <;> simp [document]
  | .int _, u => by cases u <;> simp [document]
  | .capture _, u => by cases u <;> simp [document]
  | .list ts, .list us => by simp [document, documents_inj ts us]
  | .list _, .str _ | .list _, .int _ | .list _, .capture _ => by simp [document]

lemma documents_inj : (ts us : List Term) → documents ts = documents us ↔ ts = us
  | [], us => by cases us <;> simp [documents]
  | t :: ts, [] => by simp [documents]
  | t :: ts, u :: us => by simp [documents, document_inj t u, documents_inj ts us]
end

end Term

namespace Guard

mutual
lemma document_inj : (g h : Guard) → g.document = h.document ↔ g = h
  | .always, h => by cases h <;> simp [document]
  | .eq .., h => by cases h <;> simp [document]
  | .between .., h => by cases h <;> simp [document]
  | .any gs, .any hs => by simp [document, documents_inj gs hs]
  | .all gs, .all hs => by simp [document, documents_inj gs hs]
  | .any _, .always | .any _, .eq .. | .any _, .between .. | .any _, .all _
  | .all _, .always | .all _, .eq .. | .all _, .between .. | .all _, .any _ => by simp [document]

lemma documents_inj : (gs hs : List Guard) → documents gs = documents hs ↔ gs = hs
  | [], hs => by cases hs <;> simp [documents]
  | g :: gs, [] => by simp [documents]
  | g :: gs, h :: hs => by simp [documents, document_inj g h, documents_inj gs hs]
end

end Guard

lemma Name.document_inj {m n : Name} : m.document = n.document ↔ m = n := by
  simp [document, text_inj]

lemma Shape.document_inj {s t : Shape} : s.document = t.document ↔ s = t := by
  cases s
  cases t
  simp [document]

lemma Pattern.document_inj {p q : Pattern} : p.document = q.document ↔ p = q := by
  cases p <;> cases q <;> simp [document, Shape.document_inj]

lemma StackPattern.document_inj {p q : StackPattern} : p.document = q.document ↔ p = q := by
  cases p <;> cases q <;> simp [document]

lemma StackUpdate.document_inj {s t : StackUpdate} : s.document = t.document ↔ s = t := by
  cases s <;> cases t <;> simp [document]

lemma LineMove.document_inj {m n : LineMove} : m.document = n.document ↔ m = n := by
  cases m <;> cases n <;> simp [document]

lemma ColumnMove.document_inj {m n : ColumnMove} : m.document = n.document ↔ m = n := by
  cases m <;> cases n <;> simp [document]

namespace AccUpdate

@[simp] lemma prepend_beq (ts us : List Term) : (prepend ts == prepend us) = (ts == us) := rfl
@[simp] lemma merge_beq (f g : Transform Value) : (merge f == merge g) = (f == g) := rfl

lemma document_eq_iff {a b : AccUpdate} : a.document = b.document ↔ (a == b) = true := by
  cases a <;> cases b <;> simp [document, Term.documents_inj] <;> rfl

end AccUpdate

namespace Body

@[simp] lemma invoke_beq (target target' : Name) (acc acc' : AccUpdate)
    (stack stack' : StackUpdate) (move move' : Movement) :
    (invoke target acc stack move == invoke target' acc' stack' move') =
      (target == target' && (acc == acc' && (stack == stack' && move == move'))) := rfl

@[simp] lemma error_beq (reason reason' : String) :
    (error reason == error reason') = (reason == reason') := rfl

lemma document_eq_iff {a b : Body} : a.document = b.document ↔ (a == b) = true := by
  cases a with
  | invoke target acc stack move =>
    cases b with
    | invoke target' acc' stack' move' =>
      obtain ⟨line, column⟩ := move
      obtain ⟨line', column'⟩ := move'
      simp [document, Name.document_inj, AccUpdate.document_eq_iff, StackUpdate.document_inj,
        LineMove.document_inj, ColumnMove.document_inj]
    | _ => simp [document]; rfl
  | ok => cases b <;> simp [document] <;> rfl
  | error reason => cases b <;> simp [document] <;> rfl

end Body

namespace Procedure

lemma fallbackField_inj {m n : Option Name} : fallbackField m = fallbackField n ↔ m = n := by
  cases m <;> cases n <;> simp [fallbackField, Name.document_inj]

lemma beq_def (p q : Procedure) : (p == q) = (p.name == q.name && (p.input == q.input &&
    (p.stack == q.stack && (p.guard == q.guard && (p.body == q.body &&
      p.fallback == q.fallback))))) := rfl

lemma document_eq_iff (p q : Procedure) : p.document = q.document ↔ (p == q) = true := by
  have hinput : p.input.map Pattern.document = q.input.map Pattern.document ↔ p.input = q.input :=
    List.map_inj_right fun _ _ => Pattern.document_inj.mp
  simp [document, beq_def, Name.document_inj, hinput, StackPattern.document_inj,
    Guard.document_inj, Body.document_eq_iff, fallbackField_inj, and_assoc]

end Procedure

lemma Entry.document_inj {a b : Entry} : a.document = b.document ↔ a = b := by
  obtain ⟨target, line, column⟩ := a
  obtain ⟨target', line', column'⟩ := b
  simp [document, Name.document_inj]

namespace Program

lemma beq_def (p q : Program) : (p == q) =
    (p.name == q.name && (p.entry == q.entry && p.procedures == q.procedures)) := rfl

lemma document_eq_iff {p q : Program} : p.document = q.document ↔ (p == q) = true := by
  simp [document, beq_def, Entry.document_inj, Document.map_eq_iff_beq Procedure.document_eq_iff]

/-- Programs are written as one text just when they are equal, whatever names, texts and numbers
they hold. -/
theorem toJson_eq_iff (p q : Program) : p.toJson = q.toJson ↔ (p == q) = true := by
  rw [toJson, toJson, Document.text_inj, document_eq_iff]

end Program
end ParserChain
