import ParserChain.Proofs.Movement

/-! Movements of runs. Moving by two runs of deltas in turn is moving by both at once, and texts in
a row move as the one text that they make up, wherever it is cut. The movement of a text is read
off its line breaks and the bytes behind the last of them. -/
namespace ParserChain

namespace Counter

lemma addCapped_cap (m n : Nat) : addCapped (cap m) (cap n) = cap (m + n) := by
  apply UInt32.toNat_inj.1
  simp only [toNat_addCapped, toNat_cap]
  omega

lemma cap_ne_zero {n : Nat} (h : n ≠ 0) : cap n ≠ 0 := by
  intro hz
  have hn := congrArg UInt32.toNat hz
  rw [toNat_cap, UInt32.toNat_zero] at hn
  unfold largest at hn
  omega

end Counter

namespace Utf8

/-- No byte of a longer encoding is a line break. -/
lemma newline_mem_encode {c : Char} : newline ∈ encode c ↔ c = '\n' := by
  constructor
  · intro h
    have hread : read? (encode c) = some '\n' := by
      unfold encode at h ⊢
      obtain ⟨i, hi, hbyte⟩ := List.getElem_of_mem h
      -- a line break can only be a first byte, and a first byte that is one is the whole character
      have hfirst : (String.utf8EncodeChar c)[i].IsUTF8FirstByte := by
        rw [hbyte]
        decide
      rw [UInt8.isUTF8FirstByte_getElem_utf8EncodeChar] at hfirst
      subst hfirst
      obtain ⟨b, bs, hcons⟩ := List.exists_cons_of_ne_nil (List.ne_nil_of_mem h)
      obtain rfl : b = newline := by simpa [hcons] using hbyte
      rw [hcons]
      exact read?_encode_append '\n' bs
    have hself := read?_encode_append c []
    rw [List.append_nil, hread] at hself
    exact (Option.some.inj hself).symm
  · rintro rfl
    decide

lemma count_newline_encode (c : Char) :
    (encode c).count newline = if c = '\n' then 1 else 0 := by
  split
  · rename_i h
    subst h
    decide
  · rename_i h
    exact List.count_eq_zero.mpr fun hmem => h (newline_mem_encode.mp hmem)

/-- A text has as many line breaks among its bytes as among its characters. -/
lemma count_newline_bytes (text : String) :
    (bytes text).count newline = text.toList.count '\n' := by
  unfold bytes
  induction text.toList with
  | nil => rfl
  | cons c cs ih =>
    rw [List.flatMap_cons, List.count_append, ih, count_newline_encode, List.count_cons,
      Nat.add_comm]
    simp

lemma newline_mem_bytes {text : String} : newline ∈ bytes text ↔ '\n' ∈ text.toList := by
  rw [← List.count_pos_iff, count_newline_bytes, List.count_pos_iff]

end Utf8

namespace Delta

/-- The bytes after the last break are those of the back part, if it has a break. -/
lemma lastLine_append (front back : List UInt8) : lastLine (front ++ back) =
    if newline ∈ back then lastLine back else lastLine front ++ back := by
  induction back using List.reverseRecOn with
  | nil => simp
  | append_singleton back b ih =>
    rw [← List.append_assoc, lastLine_append_singleton, lastLine_append_singleton, ih]
    by_cases hb : b = newline
    · simp [hb]
    · have hb' : newline ≠ b := Ne.symm hb
      by_cases hm : newline ∈ back <;> simp [hb, hb', hm]

end Delta

namespace Reach

/-- The reach of bytes that are passed at once. -/
def ofBytes (input : List UInt8) : Reach where
  breaks := Counter.cap (input.count newline)
  column := Counter.cap
    (if newline ∈ input then (Delta.lastLine input).length + 1 else input.length)
  broken := newline ∈ input

lemma extend_ofBytes (input : List UInt8) : start.extend (Delta.ofBytes input) = ofBytes input := by
  have hzero : Counter.cap 0 = 0 := rfl
  have hone : Counter.cap 1 = 1 := rfl
  have hadd (n : Nat) : Counter.addCapped 0 (Counter.cap n) = Counter.cap n := by
    rw [← hzero, Counter.addCapped_cap, Nat.zero_add]
  by_cases h : newline ∈ input
  · rw [Delta.ofBytes, if_pos h, ← hone, Counter.addCapped_cap]
    simp [extend, start, ofBytes, h, hadd]
  · rw [Delta.ofBytes, if_neg h]
    simp [extend, start, ofBytes, h, hadd, List.count_eq_zero.mpr h, hzero]

/-- Bytes in a row reach as far as the parts, one after the other. -/
lemma combine_ofBytes (front back : List UInt8) :
    (ofBytes front).combine (ofBytes back) = ofBytes (front ++ back) := by
  by_cases hb : newline ∈ back <;> by_cases hf : newline ∈ front <;>
    simp [combine, ofBytes, hb, hf, Counter.addCapped_cap, Delta.lastLine_append, Nat.add_right_comm]

/-- Texts in a row reach as far as the text that they make up. -/
lemma foldl_ofLiteral (texts : List String) :
    (texts.map Delta.ofLiteral).foldl extend start = ofBytes (Utf8.bytes (String.join texts)) := by
  induction texts with
  | nil => rfl
  | cons text texts ih =>
    rw [List.map_cons, List.foldl_cons, foldl_extend, ih, Delta.ofLiteral, extend_ofBytes,
      combine_ofBytes, String.join_cons, Utf8.bytes_append]

/-- Without a break the line stays and the column moves on. -/
lemma movement_of_not_mem {input : List UInt8} (h : newline ∉ input) :
    (ofBytes input).movement = ⟨.incoming, .advance (Counter.cap input.length)⟩ := by
  have hzero : Counter.cap 0 = 0 := rfl
  simp [movement, ofBytes, h, List.count_eq_zero.mpr h, hzero]

/-- A break sets the column to what stands behind the last one. -/
lemma movement_of_mem {input : List UInt8} (h : newline ∈ input) :
    (ofBytes input).movement = ⟨.advance (Counter.cap (input.count newline)),
      .reset (Counter.cap ((Delta.lastLine input).length + 1))⟩ := by
  have hne := Counter.cap_ne_zero (Nat.ne_of_gt (List.count_pos_iff.mpr h))
  simp [movement, ofBytes, h, hne]

end Reach

/-- A text with a line break has a last one. -/
lemma exists_last_break {text : String} (h : '\n' ∈ text.toList) :
    ∃ front last, text = front ++ "\n" ++ last ∧ '\n' ∉ last.toList := by
  obtain ⟨last, front, heq, hlast⟩ := List.eq_append_cons_of_mem (List.mem_reverse.mpr h)
  refine ⟨String.ofList front.reverse, String.ofList last.reverse, ?_, by simpa using hlast⟩
  rw [← String.toList_inj, ← List.reverse_inj, heq]
  simp

namespace Movement

/-- The movement of texts in a row is that of the bytes of all of them. -/
lemma ofDeltas_ofLiteral (texts : List String) : ofDeltas (texts.map Delta.ofLiteral) =
    (Reach.ofBytes (Utf8.bytes (String.join texts))).movement := by
  rw [ofDeltas, Reach.foldl_ofLiteral]

/-- Two movements that fit in turn fit at once and lead to the same place. Texts in a row move as
the text that they make up: by its bytes where it has no line break, and otherwise by the number of
its breaks and to the column behind the last of them. -/
theorem composes_and_depends_on_text :
    (∀ (a b : List Delta) (p q r : Position), (ofDeltas a).move? p = some q →
      (ofDeltas b).move? q = some r → (ofDeltas (a ++ b)).move? p = some r) ∧
    ∀ (texts : List String) (text : String), text = String.join texts →
      ofDeltas (texts.map Delta.ofLiteral) = ofDeltas [Delta.ofLiteral text] ∧
      ('\n' ∉ text.toList ∧ ofDeltas (texts.map Delta.ofLiteral) =
          ⟨.incoming, .advance (Counter.cap text.utf8ByteSize)⟩ ∨
        ∃ front last, text = front ++ "\n" ++ last ∧ '\n' ∉ last.toList ∧
          ofDeltas (texts.map Delta.ofLiteral) =
            ⟨.advance (Counter.cap (text.toList.count '\n')),
              .reset (Counter.cap (1 + last.utf8ByteSize))⟩) := by
  refine ⟨fun a b p q r ha hb => move?_ofDeltas_append ha hb, ?_⟩
  rintro texts text rfl
  have hone := ofDeltas_ofLiteral [String.join texts]
  rw [String.join_cons, String.join_nil, String.append_empty] at hone
  refine ⟨(ofDeltas_ofLiteral texts).trans hone.symm, ?_⟩
  rw [ofDeltas_ofLiteral]
  by_cases h : '\n' ∈ (String.join texts).toList
  · right
    obtain ⟨front, last, heq, hlast⟩ := exists_last_break h
    refine ⟨front, last, heq, hlast, ?_⟩
    have hbehind : (Delta.lastLine (Utf8.bytes (String.join texts))).length = last.utf8ByteSize := by
      have hnone := Utf8.newline_mem_bytes.not.mpr hlast
      rw [heq, Utf8.bytes_append, Utf8.bytes_append, Delta.lastLine_append, if_neg hnone,
        show Utf8.bytes "\n" = [newline] from rfl, Delta.lastLine_append_singleton, if_pos rfl,
        List.nil_append, Utf8.length_bytes]
    rw [Reach.movement_of_mem (Utf8.newline_mem_bytes.mpr h), Utf8.count_newline_bytes, hbehind,
      Nat.add_comm]
  · left
    rw [Reach.movement_of_not_mem (Utf8.newline_mem_bytes.not.mpr h), Utf8.length_bytes]
    exact ⟨h, rfl⟩

/-- From the start of a line that is numbered zero, a sum of columns that is capped, and behind it
a break that crosses no line. A character is cut from the breaks around it. -/
theorem composes_and_depends_on_text_capped :
    (ofDeltas [.column 4294967295, .column 5]).move? ⟨0, 0⟩ = some ⟨0, 4294967295⟩ ∧
    (ofDeltas [.line 0 9, .column 1]).move? ⟨0, 4294967295⟩ = some ⟨0, 10⟩ ∧
    (ofDeltas ([.column 4294967295, .column 5] ++ [.line 0 9, .column 1])).move? ⟨0, 0⟩ =
      some ⟨0, 10⟩ ∧
    "a\né\n\nbc" = String.join ["a\n", "é", "\n\nb", "c"] ∧
    ofDeltas (["a\n", "é", "\n\nb", "c"].map Delta.ofLiteral) =
      ofDeltas [Delta.ofLiteral "a\né\n\nbc"] := by
  have hfront : (ofDeltas [.column 4294967295, .column 5]).move? ⟨0, 0⟩ =
      some ⟨0, 4294967295⟩ := by decide +kernel
  have hback : (ofDeltas [.line 0 9, .column 1]).move? ⟨0, 4294967295⟩ = some ⟨0, 10⟩ := by
    decide +kernel
  have hjoin : "a\né\n\nbc" = String.join ["a\n", "é", "\n\nb", "c"] := by decide +kernel
  exact ⟨hfront, hback, composes_and_depends_on_text.1 _ _ _ _ _ hfront hback, hjoin,
    (composes_and_depends_on_text.2 _ _ hjoin).1⟩

end Movement

end ParserChain
