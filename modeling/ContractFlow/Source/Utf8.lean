/-!
Text by its UTF-8 bytes: cutting a text at byte offsets, and decoding bytes that may not be UTF-8.
Texts are also cut at separators, into fields.
-/

namespace ContractFlow

/-- The fields of a text, one more than there are separators. -/
def fields (separator : Char) : List Char → List (List Char)
  | [] => [[]]
  | c :: cs =>
    if c = separator then [] :: fields separator cs
    else match fields separator cs with
      | field :: rest => (c :: field) :: rest
      | [] => [[c]]

namespace Utf8

/-- Drops exactly `n` bytes from the front. There is no answer when the text is shorter, or when the
cut would fall inside a character. -/
def drop? : Nat → List Char → Option (List Char)
  | 0, cs => some cs
  | _ + 1, [] => none
  | n + 1, c :: cs => if c.utf8Size ≤ n + 1 then drop? (n + 1 - c.utf8Size) cs else none

/-- Keeps exactly `n` bytes of the front, under the same conditions. -/
def take? : Nat → List Char → Option (List Char)
  | 0, _ => some []
  | _ + 1, [] => none
  | n + 1, c :: cs =>
    if c.utf8Size ≤ n + 1 then (take? (n + 1 - c.utf8Size) cs).map (c :: ·) else none

/-- The bytes that may follow a first byte, as the bounds of the second byte and the number of
continuation bytes after that, together with the bits of the first byte. -/
def lead? (b : UInt8) : Option (UInt8 × UInt8 × Nat × Nat) :=
  if 0xC2 ≤ b ∧ b ≤ 0xDF then some (0x80, 0xBF, 0, b.toNat - 0xC0)
  else if b = 0xE0 then some (0xA0, 0xBF, 1, 0)
  else if b = 0xED then some (0x80, 0x9F, 1, 0xD)
  else if 0xE1 ≤ b ∧ b ≤ 0xEF then some (0x80, 0xBF, 1, b.toNat - 0xE0)
  else if b = 0xF0 then some (0x90, 0xBF, 2, 0)
  else if 0xF1 ≤ b ∧ b ≤ 0xF3 then some (0x80, 0xBF, 2, b.toNat - 0xF0)
  else if b = 0xF4 then some (0x80, 0x8F, 2, 4)
  else none

/-- A character whose first bytes have been read: its bits so far, the bounds of the next byte, and
the number of continuation bytes after that one. -/
structure Pending where
  bits : Nat
  low : UInt8
  high : UInt8
  more : Nat

/-- Decoding state: the characters so far, last first, and the character being read. -/
structure Decoder where
  chars : List Char
  pending : Option Pending

/-- The character that stands for a part of the bytes that is not UTF-8. -/
def replacement : Char := '�'

def Decoder.start (d : Decoder) (b : UInt8) : Decoder :=
  if b < 0x80 then ⟨Char.ofNat b.toNat :: d.chars, none⟩
  else match lead? b with
    | some (low, high, more, bits) => ⟨d.chars, some ⟨bits, low, high, more⟩⟩
    | none => ⟨replacement :: d.chars, none⟩

def Decoder.step (d : Decoder) (b : UInt8) : Decoder :=
  match d.pending with
  | none => d.start b
  | some p =>
    if p.low ≤ b ∧ b ≤ p.high then
      let bits := 64 * p.bits + (b.toNat - 0x80)
      match p.more with
      | 0 => ⟨Char.ofNat bits :: d.chars, none⟩
      | more + 1 => ⟨d.chars, some ⟨bits, 0x80, 0xBF, more⟩⟩
    else Decoder.start ⟨replacement :: d.chars, none⟩ b

/-- Decodes bytes as UTF-8, with one replacement character for each maximal part of a character that
is cut short, and for each byte that can begin none. -/
def decodeLossy (bytes : List UInt8) : String :=
  let d := bytes.foldl Decoder.step ⟨[], none⟩
  String.ofList (if d.pending.isSome then replacement :: d.chars else d.chars).reverse

/-- Decodes bytes that must be UTF-8 throughout. -/
def decode? (bytes : List UInt8) : Option String :=
  String.fromUTF8? ⟨bytes.toArray⟩

end Utf8

end ContractFlow
