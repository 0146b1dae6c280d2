import ContractFlow.Json.Value

/-!
Number literals. A literal without fraction and exponent is an integer if it is not `-0` and fits
into 64 bits. Every other literal is a decimal, and is refused when it is too large for a
double-precision number: digits that no longer fit into an unsigned 64-bit significand are dropped,
and significand and power of ten are rounded to a double before they are multiplied.
-/

namespace ContractFlow.Json.Number

/-- The value of an ASCII digit. -/
def digit? (c : Char) : Option Nat :=
  if c.isDigit then some (c.toNat - '0'.toNat) else none

/-- The value of a run of ASCII digits. -/
def value (digits : List Char) : Nat :=
  digits.foldl (fun n c => 10 * n + (c.toNat - '0'.toNat)) 0

/-- `n` rounded to 53 binary digits, a tie going to the even neighbour. -/
def round53 (n : Nat) : Nat :=
  if n < Nat.pow 2 53 then n else
    let unit := Nat.pow 2 (n.log2 - 52)
    let quotient := n / unit
    let rest := n % unit
    if 2 * rest > unit ∨ (2 * rest = unit ∧ quotient % 2 = 1) then (quotient + 1) * unit
    else quotient * unit

/-- The least number that no double-precision number is nearest to. -/
def doubleLimit : Nat := Nat.pow 2 1024 - Nat.pow 2 970

/-- Appends digits to a significand while it stays below `2 ^ 64`, and counts the digits used. -/
def extend (significand : Nat) : List Char → Nat × Nat
  | [] => (significand, 0)
  | c :: rest =>
    let next := 10 * significand + (c.toNat - '0'.toNat)
    if next < UInt64.size then
      let (final, used) := extend next rest
      (final, used + 1)
    else (significand, 0)

/-- Whether `significand * 10 ^ exponent` is beyond the range of a double. -/
def outOfRange (significand : Nat) (exponent : Int) : Bool :=
  significand ≠ 0 && 0 ≤ exponent &&
    (308 < exponent || doubleLimit ≤ round53 significand * round53 (Nat.pow 10 exponent.toNat))

/-- The parts of a literal: its sign, the digits before and after the point, and the exponent. -/
structure Parts where
  negative : Bool
  whole : List Char
  fraction : Option (List Char)
  exponent : Option Int

/-- The exponent part of a literal, which must take up all of the text. -/
def exponent? : List Char → Option (Option Int)
  | [] => some none
  | e :: rest =>
    if e = 'e' ∨ e = 'E' then
      let (negative, digits) := match rest with
        | '+' :: digits => (false, digits)
        | '-' :: digits => (true, digits)
        | digits => (false, digits)
      if digits.isEmpty || !digits.all Char.isDigit then none
      else some (some (if negative then -(value digits : Int) else value digits))
    else none

/-- Splits a literal by the JSON grammar: a whole part without leading zeros, then an optional
fraction and an optional exponent. -/
def parts? (literal : List Char) : Option Parts := do
  let (negative, rest) := match literal with
    | '-' :: rest => (true, rest)
    | rest => (false, rest)
  let (whole, rest) := rest.span Char.isDigit
  if whole.isEmpty || (whole.head? = some '0' && whole.length ≠ 1) then failure
  match rest with
  | '.' :: rest =>
    let (fraction, rest) := rest.span Char.isDigit
    if fraction.isEmpty then failure
    return ⟨negative, whole, some fraction, ← exponent? rest⟩
  | rest => return ⟨negative, whole, none, ← exponent? rest⟩

/-- The decimal that the parts write, unless it is out of range. -/
def Parts.decimal? (p : Parts) : Option Json :=
  let (significand, used) := extend 0 p.whole
  let (significand, usedAfter) := extend significand (p.fraction.getD [])
  let exponent : Int := (p.whole.length - used : Nat) - usedAfter + p.exponent.getD 0
  if outOfRange significand exponent then none
  else some (.decimal (if p.negative then -(significand : Int) else significand) exponent)

/-- Reads a number literal. -/
def read? (literal : List Char) : Option Json := do
  let p ← parts? literal
  if p.fraction.isNone && p.exponent.isNone then
    let n := value p.whole
    if p.negative then
      if 0 < n ∧ Int64.minValue.toInt ≤ -n then return .integer (-n)
    else if n < UInt64.size then return .integer n
  p.decimal?

end ContractFlow.Json.Number
