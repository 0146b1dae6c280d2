import ContractFlow.Proofs.SpanText

/-!
The grammar of spans. Numbers are written in decimal (`Span.Numeral`), those that cannot be negative
after an optional plus sign (`Span.Unsigned`), the others after an optional sign (`Span.Signed`),
and a span is three numbers between colons (`Span.Writes`). Leading zeros are allowed, blanks are
not.

Main statement: `Span.parse_writes`. What is read is what is written according to the grammar, as
far as the numbers have 64 bits; every other text is an invalid location.
-/

namespace ContractFlow

theorem fields_ne_nil (separator : Char) (cs : List Char) : fields separator cs ≠ [] := by
  cases cs with
  | nil => simp [fields]
  | cons c cs =>
    rw [fields]
    split
    · simp
    · split <;> simp

/-- A text is its fields with the separators between them. -/
theorem intercalate_fields (separator : Char) (cs : List Char) :
    [separator].intercalate (fields separator cs) = cs := by
  induction cs with
  | nil => simp [fields]
  | cons c cs ih =>
    obtain ⟨field, rest, hrest⟩ := List.exists_cons_of_ne_nil (fields_ne_nil separator cs)
    rw [hrest] at ih
    rw [fields, hrest]
    split
    · next hc =>
      rw [List.intercalate_cons_cons, ih, hc]
      rfl
    · rw [← ih]
      cases rest with
      | nil => rfl
      | cons next rest => simp only [List.intercalate_cons_cons, List.cons_append]

namespace Span

/-- A number in decimal. -/
inductive Numeral : List Char → Nat → Prop
  | digit {d : Nat} : d < 10 → Numeral [d.digitChar] d
  | more {cs : List Char} {n d : Nat} : Numeral cs n → d < 10 →
    Numeral (cs ++ [d.digitChar]) (10 * n + d)

/-- A number after an optional plus sign. -/
inductive Unsigned : List Char → Nat → Prop
  | bare {cs : List Char} {n : Nat} : Numeral cs n → Unsigned cs n
  | plus {cs : List Char} {n : Nat} : Numeral cs n → Unsigned ('+' :: cs) n

/-- A number after an optional sign. -/
inductive Signed : List Char → Int → Prop
  | unsigned {cs : List Char} {n : Nat} : Unsigned cs n → Signed cs n
  | minus {cs : List Char} {n : Nat} : Numeral cs n → Signed ('-' :: cs) (-n)

/-- Three numbers between colons. -/
inductive Writes : List Char → Nat → Nat → Int → Prop
  | intro {p q r : List Char} {offset length : Nat} {file : Int} :
    Unsigned p offset → Unsigned q length → Signed r file →
    Writes (p ++ ':' :: (q ++ ':' :: r)) offset length file

/-! ## Numbers -/

theorem eq_digitChar_of_isDigit {c : Char} (h : c.isDigit = true) :
    c.toNat - '0'.toNat < 10 ∧ (c.toNat - '0'.toNat).digitChar = c := by
  obtain ⟨hlow, hhigh⟩ := Char.isDigit_iff_toNat.mp h
  simp only [Char.reduceToNat] at hlow hhigh ⊢
  refine ⟨by omega, Char.toNat_inj.mp ?_⟩
  rw [Nat.toNat_digitChar_of_lt_ten (by omega)]
  omega

namespace Numeral

variable {cs : List Char} {n : Nat}

theorem isDigit (h : Numeral cs n) : ∀ c ∈ cs, c.isDigit = true := by
  induction h with
  | digit hd => simpa [Nat.isDigit_digitChar] using hd
  | more _ hd ih =>
    intro c hc
    rcases List.mem_append.mp hc with hc | hc
    · exact ih c hc
    · rw [List.mem_singleton.mp hc, Nat.isDigit_digitChar, decide_eq_true hd]

theorem ne_nil (h : Numeral cs n) : cs ≠ [] := by
  cases h <;> simp

/-- Digits behind a number go on with it. -/
theorem append (h : Numeral cs n) {digits : List Char} (hdigits : ∀ c ∈ digits, c.isDigit = true) :
    Numeral (cs ++ digits) (Nat.ofDigitChars 10 digits n) := by
  induction digits generalizing cs n with
  | nil => simpa using h
  | cons c digits ih =>
    obtain ⟨hc, hdigits⟩ := List.forall_mem_cons.mp hdigits
    obtain ⟨hlt, hchar⟩ := eq_digitChar_of_isDigit hc
    have hmore := h.more hlt
    rw [hchar] at hmore
    rw [Nat.ofDigitChars_cons, List.append_cons]
    exact ih hmore hdigits

theorem ofDigitChars_eq (h : Numeral cs n) : Nat.ofDigitChars 10 cs 0 = n := by
  induction h with
  | digit hd =>
    rw [Nat.ofDigitChars_cons_digitChar_of_lt_ten hd, Nat.ofDigitChars_nil,
      Nat.mul_zero, Nat.zero_add]
  | more _ hd ih =>
    rw [Nat.ofDigitChars_append, ih, Nat.ofDigitChars_cons_digitChar_of_lt_ten hd,
      Nat.ofDigitChars_nil]

theorem of_isDigit (hne : cs ≠ []) (hdigits : ∀ c ∈ cs, c.isDigit = true) :
    Numeral cs (Nat.ofDigitChars 10 cs 0) := by
  obtain ⟨c, cs, rfl⟩ := List.exists_cons_of_ne_nil hne
  obtain ⟨hc, hdigits⟩ := List.forall_mem_cons.mp hdigits
  obtain ⟨hlt, hchar⟩ := eq_digitChar_of_isDigit hc
  have happend := (digit hlt).append hdigits
  rwa [← Nat.zero_add (c.toNat - '0'.toNat), ← Nat.mul_zero 10, ← Nat.ofDigitChars_cons,
    Nat.mul_zero, Nat.zero_add, hchar] at happend

end Numeral

theorem digits?_eq_some_iff {cs : List Char} {n : Nat} : digits? cs = some n ↔ Numeral cs n := by
  have hvalue : digits? cs =
    if cs.isEmpty || !cs.all Char.isDigit then none else some (Nat.ofDigitChars 10 cs 0) := rfl
  rw [hvalue]
  constructor
  · intro h
    split at h
    · cases h
    · next hdigits =>
      cases h
      simp only [Bool.or_eq_true, Bool.not_eq_true', not_or, Bool.not_eq_true,
        Bool.not_eq_false] at hdigits
      exact .of_isDigit (List.isEmpty_eq_false_iff.mp hdigits.1) (List.all_eq_true.mp hdigits.2)
  · intro h
    rw [List.isEmpty_eq_false_iff.mpr h.ne_nil, List.all_eq_true.mpr h.isDigit, h.ofDigitChars_eq]
    rfl

/-! ## Signs -/

theorem Numeral.ne_cons {cs : List Char} {n : Nat} (h : Numeral cs n) {c : Char}
    (hc : c.isDigit = false) (rest : List Char) : cs ≠ c :: rest := by
  rintro rfl
  rw [h.isDigit c List.mem_cons_self] at hc
  cases hc

theorem unsigned_iff {cs : List Char} {n : Nat} : Unsigned cs n ↔ digits? (match cs with
    | '+' :: rest => rest
    | _ => cs) = some n := by
  rw [digits?_eq_some_iff]
  split
  · constructor
    · rintro (h | h)
      · exact absurd rfl (h.ne_cons rfl _)
      · exact h
    · exact .plus
  · next hplus =>
    constructor
    · rintro (h | h)
      · exact h
      · exact absurd rfl (hplus _)
    · exact .bare

theorem unsigned?_eq_some_iff {cs : List Char} {n : UInt64} :
    unsigned? cs = some n ↔ Unsigned cs n.toNat := by
  unfold unsigned?
  rw [unsigned_iff, Option.bind_eq_bind, Option.bind_eq_some_iff]
  constructor
  · rintro ⟨m, hm, hn⟩
    split at hn
    · next hlt =>
      cases hn
      rwa [UInt64.toNat_ofNat_of_lt' hlt]
    · cases hn
  · intro h
    exact ⟨n.toNat, h, by rw [if_pos n.toNat_lt, UInt64.ofNat_toNat]⟩

theorem map_digits?_eq_some_iff {cs : List Char} {value : Nat → Int} {n : Int} :
    (digits? cs).map value = some n ↔ ∃ m, Numeral cs m ∧ value m = n := by
  simp only [Option.map_eq_some_iff, digits?_eq_some_iff]

theorem signed_plus_iff {cs : List Char} {n : Int} :
    Signed ('+' :: cs) n ↔ ∃ m, Numeral cs m ∧ Int.ofNat m = n := by
  constructor
  · rintro (h | h)
    cases h with
    | bare h => exact absurd rfl (h.ne_cons rfl _)
    | plus h => exact ⟨_, h, rfl⟩
  · rintro ⟨m, h, rfl⟩
    exact .unsigned (.plus h)

theorem signed_minus_iff {cs : List Char} {n : Int} :
    Signed ('-' :: cs) n ↔ ∃ m, Numeral cs m ∧ -Int.ofNat m = n := by
  constructor
  · intro h
    cases h with
    | unsigned h =>
      cases h with
      | bare h => exact absurd rfl (h.ne_cons rfl _)
    | minus h => exact ⟨_, h, rfl⟩
  · rintro ⟨m, h, rfl⟩
    exact .minus h

theorem signed_bare_iff {cs : List Char} {n : Int} (hplus : ∀ rest, cs ≠ '+' :: rest)
    (hminus : ∀ rest, cs ≠ '-' :: rest) :
    Signed cs n ↔ ∃ m, Numeral cs m ∧ Int.ofNat m = n := by
  constructor
  · intro h
    cases h with
    | unsigned h =>
      cases h with
      | bare h => exact ⟨_, h, rfl⟩
      | plus h => exact absurd rfl (hplus _)
    | minus h => exact absurd rfl (hminus _)
  · rintro ⟨m, h, rfl⟩
    exact .unsigned (.bare h)

theorem signed?_eq_some_iff {cs : List Char} {n : Int64} :
    signed? cs = some n ↔ Signed cs n.toInt := by
  have hrange (o : Option Int) : (o.bind fun m =>
      if Int64.minValue.toInt ≤ m ∧ m ≤ Int64.maxValue.toInt then some (Int64.ofInt m) else none) =
        some n ↔
        o = some n.toInt := by
    rw [Option.bind_eq_some_iff]
    constructor
    · rintro ⟨m, hm, hn⟩
      split at hn
      · next hrange =>
        cases hn
        rwa [Int64.toInt_ofInt_of_le hrange.1 (Int.lt_of_le_of_lt hrange.2 (by decide))]
      · cases hn
    · intro h
      exact ⟨n.toInt, h, by rw [if_pos ⟨n.le_toInt, n.toInt_le⟩, Int64.ofInt_toInt]⟩
  unfold signed?
  split
  · exact (hrange _).trans (map_digits?_eq_some_iff.trans signed_plus_iff.symm)
  · exact (hrange _).trans (map_digits?_eq_some_iff.trans signed_minus_iff.symm)
  · next hplus hminus =>
      exact (hrange _).trans (map_digits?_eq_some_iff.trans (signed_bare_iff hplus hminus).symm)

/-! ## Spans -/

theorem Numeral.not_mem {cs : List Char} {n : Nat} (h : Numeral cs n) : ':' ∉ cs :=
  fun hmem => absurd (h.isDigit _ hmem) (by decide)

theorem Unsigned.not_mem {cs : List Char} {n : Nat} (h : Unsigned cs n) : ':' ∉ cs := by
  cases h with
  | bare h => exact h.not_mem
  | plus h => exact List.not_mem_cons_of_ne_of_not_mem (by decide) h.not_mem

theorem Signed.not_mem {cs : List Char} {n : Int} (h : Signed cs n) : ':' ∉ cs := by
  cases h with
  | unsigned h => exact h.not_mem
  | minus h => exact List.not_mem_cons_of_ne_of_not_mem (by decide) h.not_mem

theorem Writes.fields_eq {text : List Char} {offset length : Nat} {file : Int}
    (h : Writes text offset length file) :
    ∃ p q r, fields ':' text = [p, q, r] ∧ Unsigned p offset ∧ Unsigned q length ∧
      Signed r file := by
  obtain ⟨hp, hq, hr⟩ := h
  refine ⟨_, _, _, ?_, hp, hq, hr⟩
  rw [fields_append hp.not_mem, fields_append hq.not_mem, fields_of_not_mem hr.not_mem]

theorem parse?_eq_some_iff {text : String} {s : Span} :
    parse? text = some s ↔ Writes text.toList s.offset.toNat s.length.toNat s.fileIndex.toInt := by
  obtain ⟨offset, length, file⟩ := s
  constructor
  · intro h
    rw [parse?] at h
    split at h
    · next p q r hfields =>
      obtain ⟨_, hp, h⟩ := Option.bind_eq_some_iff.mp h
      obtain ⟨_, hq, h⟩ := Option.bind_eq_some_iff.mp h
      obtain ⟨_, hr, h⟩ := Option.bind_eq_some_iff.mp h
      cases h
      have htext := intercalate_fields ':' text.toList
      rw [hfields] at htext
      rw [← htext]
      simpa using Writes.intro (unsigned?_eq_some_iff.mp hp) (unsigned?_eq_some_iff.mp hq)
        (signed?_eq_some_iff.mp hr)
    · cases h
  · intro h
    obtain ⟨p, q, r, hfields, hp, hq, hr⟩ := h.fields_eq
    rw [parse?, hfields]
    simp [unsigned?_eq_some_iff.mpr hp, unsigned?_eq_some_iff.mpr hq, signed?_eq_some_iff.mpr hr]

/-- The numbers of a span have 64 bits. -/
def InRange (offset length : Nat) (file : Int) : Prop :=
  offset < UInt64.size ∧ length < UInt64.size ∧ Int64.minValue.toInt ≤ file ∧
    file ≤ Int64.maxValue.toInt

theorem exists_iff_inRange {offset length : Nat} {file : Int} : InRange offset length file ↔
    ∃ s : Span, s.offset.toNat = offset ∧ s.length.toNat = length ∧ s.fileIndex.toInt = file := by
  constructor
  · rintro ⟨hoffset, hlength, hlow, hhigh⟩
    exact ⟨⟨.ofNat offset, .ofNat length, .ofInt file⟩, UInt64.toNat_ofNat_of_lt' hoffset,
      UInt64.toNat_ofNat_of_lt' hlength,
        Int64.toInt_ofInt_of_le hlow (Int.lt_of_le_of_lt hhigh (by decide))⟩
  · rintro ⟨s, rfl, rfl, rfl⟩
    exact ⟨s.offset.toNat_lt, s.length.toNat_lt, s.fileIndex.le_toInt, s.fileIndex.toInt_le⟩

/-- **Reading follows the grammar.** A text is read as a span exactly if the grammar writes the
numbers of the span in it, and it is an invalid location exactly if the grammar writes no numbers of
64 bits in it. A span is read back from its written form. -/
theorem parse_writes (text : String) :
    (∀ s, parse text = .ok s ↔ Writes text.toList s.offset.toNat s.length.toNat s.fileIndex.toInt) ∧
    (parse text = .error (.invalidLocation text) ↔
      ¬∃ offset length file, Writes text.toList offset length file ∧ InRange offset length file) ∧
    ∀ s : Span, parse s.render = .ok s := by
  refine ⟨fun s => ?_, ?_, fun s => ?_⟩
  · rw [← parse?_eq_some_iff, parse]
    cases parse? text <;> simp
  · have hexists :
        (∃ offset length file, Writes text.toList offset length file ∧ InRange offset length file) ↔
        ∃ s, parse? text = some s := by
      simp only [exists_iff_inRange, parse?_eq_some_iff]
      constructor
      · rintro ⟨_, _, _, h, s, rfl, rfl, rfl⟩
        exact ⟨s, h⟩
      · rintro ⟨s, h⟩
        exact ⟨_, _, _, h, s, rfl, rfl, rfl⟩
    rw [hexists, parse]
    cases parse? text <;> simp
  · rw [parse, parse?_render]

/-- Signs and leading zeros are allowed, and numbers of 65 bits are not. -/
example : (parse "+007:18446744073709551615:-9223372036854775808").toOption.isSome ∧
    (parse "0:18446744073709551616:0").toOption.isNone := by decide +kernel

end Span

end ContractFlow
