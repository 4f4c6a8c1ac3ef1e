import Mathlib.Data.List.Nodup
import ParserChain.Program.Listing
import ParserChain.Proofs.ExportText

/-! Names as texts. What reads a program from outside knows a procedure by the text of its name
alone. That text is enough: as soon as the names of a program are distinct, so are their texts in
every form in which they are written, and by the text of any name a reader finds the procedure
that has the name. -/
namespace ParserChain

lemma Palette.wrapName_inj {palette : Palette} {s t : String} :
    palette.wrapName s = palette.wrapName t ↔ s = t := by
  simp [wrapName]

namespace Program
variable {p : Program}

/-- The procedures whose names have that text. -/
def withText (p : Program) (text : String) : List Procedure :=
  p.procedures.filter (·.name.text == text)

/-- No more than one procedure has a name, and it is the one that is found. -/
lemma filter_name_eq (h : p.names.Nodup) (n : Name) :
    p.procedures.filter (·.name == n) = (p.get? n).toList := by
  unfold names at h
  unfold get?
  generalize p.procedures = ds at h
  induction ds with
  | nil => rfl
  | cons d ds ih =>
    rw [List.map_cons, List.nodup_cons] at h
    obtain ⟨hd, hds⟩ := h
    cases hn : d.name == n with
    | false => simp [hn, ih hds]
    | true =>
      have hrest : ds.filter (·.name == n) = [] := by
        rw [List.filter_eq_nil_iff]
        intro e he hen
        have hname : e.name = d.name := (beq_iff_eq.mp hen).trans (beq_iff_eq.mp hn).symm
        exact hd (hname ▸ List.mem_map_of_mem he)
      simp [hn, hrest]

lemma withText_eq (h : p.names.Nodup) (n : Name) : p.withText n.text = (p.get? n).toList := by
  have htext (d : Procedure) : (d.name.text == n.text) = (d.name == n) := by
    rw [Bool.eq_iff_iff, beq_iff_eq, beq_iff_eq, Name.text_inj]
  simp only [withText, htext]
  exact filter_name_eq h n

/-- Names have one text only if base, step and role are the same, whatever the bases are. So if
the names of a program are distinct, their texts are, in listings and traces of any colours and in
documents; and the text of a name, be it that of a target, a fallback or the entry, leads to the
procedure of that name and to no other. -/
theorem name_text_denotes :
    (∀ m n : Name, m.text = n.text ↔ m.base = n.base ∧ m.step = n.step ∧ m.role = n.role) ∧
    ∀ p : Program, p.names.Nodup →
      (p.names.map Name.text).Nodup ∧
      (∀ palette : Palette, (p.names.map fun n => palette.wrapName n.text).Nodup) ∧
      (p.names.map fun n => n.document.text).Nodup ∧
      ∀ n : Name, p.withText n.text = (p.get? n).toList := by
  refine ⟨?_, ?_⟩
  · intro m n
    rw [Name.text_inj]
    cases m
    cases n
    simp
  · intro p hp
    refine ⟨?_, ?_, ?_, withText_eq hp⟩
    · exact hp.map fun m n h => Name.text_inj.mp h
    · intro palette
      exact hp.map fun m n h => Name.text_inj.mp (Palette.wrapName_inj.mp h)
    · exact hp.map fun m n h => Name.document_inj.mp (Document.text_inj.mp h)

/-- Bases that hold a separator and the mark of a catch-all. -/
def lookalike : Program where
  name := "p"
  entry := ⟨⟨"p", 0, .link⟩, ⟨1, 1⟩⟩
  procedures :=
    [{ name := ⟨"p", 0, .link⟩, body := .invoke ⟨"p__0", 0, .link⟩ .keep .keep .still,
       fallback := some ⟨"p", 0, .catchAll⟩ },
     { name := ⟨"p", 0, .catchAll⟩, body := .error "p" },
     { name := ⟨"p__0", 0, .link⟩, body := .invoke ⟨"p__0__error", 0, .link⟩ .keep .keep .still },
     { name := ⟨"p__0__error", 0, .link⟩, body := .ok }]

theorem name_text_denotes_lookalike : lookalike.names.Nodup ∧
    lookalike.names.map Name.text = ["p__0", "p__0__error", "p__0__0", "p__0__error__0"] ∧
    (lookalike.names.map Name.text).Nodup ∧
    lookalike.withText "p__0__error" = [{ name := ⟨"p", 0, .catchAll⟩, body := .error "p" }] := by
  have hnames : lookalike.names.Nodup := by decide
  obtain ⟨htexts, -, -, hfound⟩ := name_text_denotes.2 lookalike hnames
  exact ⟨hnames, by decide, htexts, hfound ⟨"p", 0, .catchAll⟩⟩

end Program
end ParserChain
