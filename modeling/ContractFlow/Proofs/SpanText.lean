import ContractFlow.Source.Span

/-!
Spans in writing. A run of digits is read back as the number it writes (`Span.digits?_toDigits`),
and a text is split at its separators where they stand (`fields_append`), so a span is read back
from its written form (`Span.parse?_render`).
-/

namespace ContractFlow

theorem fields_of_not_mem {separator : Char} {cs : List Char} (h : separator ∉ cs) :
    fields separator cs = [cs] := by
  induction cs with
  | nil => rfl
  | cons c cs ih =>
    obtain ⟨hc, hcs⟩ := not_or.mp (mt List.mem_cons.mpr h)
    simp only [fields, Ne.symm hc, if_false, ih hcs]

theorem fields_append {separator : Char} {cs : List Char} (h : separator ∉ cs) (rest : List Char) :
    fields separator (cs ++ separator :: rest) = cs :: fields separator rest := by
  induction cs with
  | nil => simp only [List.nil_append, fields, if_true]
  | cons c cs ih =>
    obtain ⟨hc, hcs⟩ := not_or.mp (mt List.mem_cons.mpr h)
    simp only [List.cons_append, fields, Ne.symm hc, if_false, ih hcs]

namespace Span

/-- A character that is no digit is not in the writing of a number. -/
theorem not_mem_toDigits {c : Char} (h : c.isDigit = false) (n : Nat) : c ∉ Nat.toDigits 10 n := by
  intro hc
  rw [Nat.isDigit_of_mem_toDigits (by decide) (by decide) hc] at h
  cases h

theorem digits?_toDigits (n : Nat) : digits? (Nat.toDigits 10 n) = some n := by
  have hempty : (Nat.toDigits 10 n).isEmpty = false :=
    List.isEmpty_eq_false_iff.mpr Nat.toDigits_ne_nil
  have hdigits : (Nat.toDigits 10 n).all Char.isDigit = true :=
    List.all_eq_true.mpr fun _ => Nat.isDigit_of_mem_toDigits (by decide) (by decide)
  rw [digits?, hempty, hdigits]
  exact congrArg some (Nat.ofDigitChars_toDigits (by decide) (by decide))

theorem toDigits_ne_cons {c : Char} (h : c.isDigit = false) (n : Nat) (rest : List Char) :
    Nat.toDigits 10 n = c :: rest → False :=
  fun heq => not_mem_toDigits h n (heq ▸ List.mem_cons_self)

theorem unsigned?_toDigits (n : UInt64) : unsigned? (Nat.toDigits 10 n.toNat) = some n := by
  rw [unsigned?, digits?_toDigits, Option.bind_eq_bind, Option.bind_some, if_pos n.toNat_lt,
    UInt64.ofNat_toNat]
  exact toDigits_ne_cons rfl n.toNat

/-- The digits of a number stand alone, or after a minus sign. -/
theorem signed?_repr (n : Int64) : signed? n.toInt.repr.toList = some n := by
  have hrange : Int64.minValue.toInt ≤ n.toInt ∧ n.toInt ≤ Int64.maxValue.toInt :=
    ⟨n.le_toInt, n.toInt_le⟩
  rw [Int.repr_eq_if]
  split
  case isTrue hsign =>
    have hvalue : Int.ofNat n.toInt.toNat = n.toInt := Int.toNat_of_nonneg hsign
    rw [Nat.toList_repr, signed?, digits?_toDigits]
    · simp only [Option.map_some, hvalue, Option.bind_eq_bind, Option.bind_some, if_pos hrange,
        Int64.ofInt_toInt]
    · exact toDigits_ne_cons rfl n.toInt.toNat
    · exact toDigits_ne_cons rfl n.toInt.toNat
  case isFalse hsign =>
    have hvalue : -Int.ofNat (-n.toInt).toNat = n.toInt := by
      have := Int.toNat_of_nonneg (a := -n.toInt) (by omega)
      simp only [Int.ofNat_eq_natCast]
      omega
    have htext :
        ("-" ++ (-n.toInt).toNat.repr).toList = '-' :: Nat.toDigits 10 (-n.toInt).toNat := by
      rw [String.toList_append, Nat.toList_repr]
      rfl
    rw [htext, signed?, digits?_toDigits]
    simp only [Option.map_some, hvalue, Option.bind_eq_bind, Option.bind_some, if_pos hrange,
      Int64.ofInt_toInt]

theorem not_mem_repr {c : Char} (h : c.isDigit = false) (hsign : c ≠ '-') (n : Int) :
    c ∉ n.repr.toList := by
  rw [Int.repr_eq_if]
  split
  · rw [Nat.toList_repr]
    exact not_mem_toDigits h _
  · rw [String.toList_append, Nat.toList_repr, List.mem_append]
    exact not_or.mpr ⟨fun hc => hsign (List.mem_singleton.mp hc), not_mem_toDigits h _⟩

theorem parse?_render (s : Span) : parse? s.render = some s := by
  have hfields :
      fields ':' s.render.toList = [Nat.toDigits 10 s.offset.toNat, Nat.toDigits 10 s.length.toNat,
      s.fileIndex.toInt.repr.toList] := by
    have htext : s.render.toList = Nat.toDigits 10 s.offset.toNat ++ ':' ::
        (Nat.toDigits 10 s.length.toNat ++ ':' :: s.fileIndex.toInt.repr.toList) := by
      simp [render]
    rw [htext, fields_append (not_mem_toDigits rfl _), fields_append (not_mem_toDigits rfl _),
      fields_of_not_mem (not_mem_repr rfl (by decide) _)]
  rw [parse?, hfields]
  simp [unsigned?_toDigits, signed?_repr]

end Span

end ContractFlow
