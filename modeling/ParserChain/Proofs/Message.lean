import Mathlib.Tactic.Lemma
import ParserChain.Combinator.Expected

/-! What a run of steps expects, as one flat list. A group says what its inner steps say, so that
joining the words of nested groups comes to joining the words of their leaves; a label is a leaf
here, whatever stands inside it. -/
namespace ParserChain.Combinator

lemma followedBy_eq_empty {ds : List String} :
    followedBy ds = "" ↔ ds.filter (!·.isEmpty) = [] := by
  constructor
  · intro h
    cases hds : ds.filter (!·.isEmpty) with
    | nil => rfl
    | cons e es =>
      have he : e ≠ "" := by
        have hmem : e ∈ ds.filter (!·.isEmpty) := hds ▸ List.mem_cons_self
        simpa using (List.mem_filter.mp hmem).2
      rw [followedBy, hds] at h
      cases es with
      | nil => exact absurd (by simpa using h) he
      | cons f fs => simp [String.intercalate_cons_cons] at h
  · intro h
    simp [followedBy, h]

/-- A description that is itself joined gives way to its parts. -/
lemma followedBy_nested (before ds after : List String) :
    followedBy (before ++ followedBy ds :: after) = followedBy (before ++ (ds ++ after)) := by
  by_cases h : ds.filter (!·.isEmpty) = []
  · rw [followedBy_eq_empty.mpr h]
    simp [followedBy, h]
  · have hkept : (followedBy ds).isEmpty = false := by
      simpa using mt followedBy_eq_empty.mp h
    have hjoin (es : List String) : ", followed by ".intercalate (followedBy ds :: es) =
        ", followed by ".intercalate (ds.filter (!·.isEmpty) ++ es) := by
      cases es with
      | nil => simp [followedBy]
      | cons e es =>
        rw [String.intercalate_cons_of_ne_nil (by simp),
          String.intercalate_append_of_ne_nil h (by simp), followedBy]
    simp only [followedBy, List.filter_append]
    rw [← followedBy, List.filter_cons_of_pos (by simpa using hkept)]
    cases hb : before.filter (!·.isEmpty) with
    | nil => simpa using hjoin _
    | cons b bs =>
      rw [String.intercalate_append_of_ne_nil (by simp) (by simp), hjoin,
        String.intercalate_append_of_ne_nil (l := b :: bs) (by simp)
          (List.append_ne_nil_of_left_ne_nil h _)]

mutual
/-- The leaves of a step as far as words go. -/
def spoken : Combinator → List Combinator
  | .literal text => [.literal text]
  | .byteRange ranges modifiers => [.byteRange ranges modifiers]
  | .label inner text => [.label inner text]
  | .traverse inner _ => spokenAll inner
  | .compileTraverse inner _ => spokenAll inner

def spokenAll : List Combinator → List Combinator
  | [] => []
  | c :: cs => spoken c ++ spokenAll cs
end

@[simp] lemma spokenAll_append (cs ds : List Combinator) :
    spokenAll (cs ++ ds) = spokenAll cs ++ spokenAll ds := by
  induction cs with
  | nil => rfl
  | cons c cs ih => simp [spokenAll, ih]

mutual
/-- In front of any words and behind any, a step can be replaced by its leaves. -/
lemma followedBy_describe (before after : List String) : (c : Combinator) →
    followedBy (before ++ describe c :: after) =
      followedBy (before ++ ((spoken c).map describe ++ after))
  | .literal text => rfl
  | .byteRange ranges modifiers => rfl
  | .label inner text => rfl
  | .traverse inner f => by
    rw [describe, followedBy_nested, followedBy_describeAll before after inner, spoken]
  | .compileTraverse inner f => by
    rw [describe, followedBy_nested, followedBy_describeAll before after inner, spoken]

lemma followedBy_describeAll (before after : List String) : (cs : List Combinator) →
    followedBy (before ++ (describeAll cs ++ after)) =
      followedBy (before ++ ((spokenAll cs).map describe ++ after))
  | [] => rfl
  | c :: cs => by
    have hcs := followedBy_describeAll (before ++ (spoken c).map describe) after cs
    rw [describeAll, List.cons_append, followedBy_describe before _ c, ← List.append_assoc, hcs]
    simp [spokenAll]
end

lemma expected_eq_spoken (steps : List Combinator) :
    expected steps = "expected " ++ followedBy ((spokenAll steps).map describe) := by
  have h := followedBy_describeAll [] [] steps
  simp only [List.nil_append, List.append_nil] at h
  rw [expected, h]

/-- The words of a leaf: a label speaks in its own text. A group has no words of its own. -/
def words : Combinator → String
  | .literal text => "a literal " ++ quote text
  | .byteRange ranges modifiers => describeUnit ranges modifiers
  | .label _ text => text
  | .traverse .. => ""
  | .compileTraverse .. => ""

def isGroup : Combinator → Bool
  | .traverse .. => true
  | .compileTraverse .. => true
  | _ => false

lemma describe_eq_words {c : Combinator} (h : c.isGroup = false) : c.describe = c.words := by
  cases c with
  | traverse inner f => cases h
  | compileTraverse inner f => cases h
  | literal text => rfl
  | byteRange ranges modifiers => rfl
  | label inner text => rfl

mutual
lemma isGroup_of_mem_spoken {d : Combinator} : (c : Combinator) → d ∈ spoken c → d.isGroup = false
  | .literal text, h => by rw [List.mem_singleton.mp h]; rfl
  | .byteRange ranges modifiers, h => by rw [List.mem_singleton.mp h]; rfl
  | .label inner text, h => by rw [List.mem_singleton.mp h]; rfl
  | .traverse inner f, h => isGroup_of_mem_spokenAll inner h
  | .compileTraverse inner f, h => isGroup_of_mem_spokenAll inner h

lemma isGroup_of_mem_spokenAll {d : Combinator} :
    (cs : List Combinator) → d ∈ spokenAll cs → d.isGroup = false
  | c :: cs, h => (List.mem_append.mp h).elim (isGroup_of_mem_spoken c)
      (isGroup_of_mem_spokenAll cs)
end

lemma map_describe_leaves {leaves : List Combinator} (h : ∀ c ∈ leaves, c.isGroup = false) :
    leaves.map describe = leaves.map words :=
  List.map_congr_left fun c hc => describe_eq_words (h c hc)

lemma followedBy_eq (ds : List String) :
    followedBy ds = ", followed by ".intercalate (ds.filter (· ≠ "")) := by
  rw [followedBy]
  congr 2
  funext d
  cases h : d.isEmpty <;> simp_all

lemma followedBy_singleton (d : String) : followedBy [d] = d := by
  by_cases h : d = "" <;> simp [followedBy, h]

/-- A message lists the words of the leaves in order, whatever groups they stand in, and so does the
description of every step. A leaf without words leaves no trace. -/
theorem expected_lists_leaves (steps : List Combinator) :
    (∀ c ∈ spokenAll steps, c.isGroup = false) ∧
    expected steps = "expected " ++
      ", followed by ".intercalate (((spokenAll steps).map words).filter (· ≠ "")) ∧
    ∀ c : Combinator, c.describe =
      ", followed by ".intercalate (((spoken c).map words).filter (· ≠ "")) := by
  refine ⟨fun c => isGroup_of_mem_spokenAll steps, ?_, fun c => ?_⟩
  · rw [← followedBy_eq, ← map_describe_leaves fun c => isGroup_of_mem_spokenAll steps,
      expected_eq_spoken]
  · have hleaves := followedBy_describe [] [] c
    simp only [List.nil_append, List.append_nil, followedBy_singleton] at hleaves
    rw [← followedBy_eq, ← map_describe_leaves fun d => isGroup_of_mem_spoken c, hleaves]

end ParserChain.Combinator
