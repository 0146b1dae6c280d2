import ContractFlow.Error
import ContractFlow.Source.Utf8

/-!
Source locations. A span is a byte offset, a length in bytes and the index of a file, written
`offset:length:file`; spans are ordered in this order of fields.
-/

namespace ContractFlow

structure Span where
  offset : UInt64
  length : UInt64
  fileIndex : Int64
  deriving DecidableEq, Repr

namespace Span

/-- The value of a nonempty run of ASCII digits. -/
def digits? (cs : List Char) : Option Nat :=
  if cs.isEmpty || !cs.all Char.isDigit then none
  else some (cs.foldl (fun n c => 10 * n + (c.toNat - '0'.toNat)) 0)

/-- An unsigned 64-bit number, after an optional plus sign. -/
def unsigned? (cs : List Char) : Option UInt64 := do
  let n ← digits? (match cs with
    | '+' :: rest => rest
    | _ => cs)
  if n < UInt64.size then some (UInt64.ofNat n) else none

/-- A signed 64-bit number, after an optional sign. -/
def signed? (cs : List Char) : Option Int64 := do
  let n : Int ← match cs with
    | '+' :: rest => (digits? rest).map Int.ofNat
    | '-' :: rest => (digits? rest).map fun n => -Int.ofNat n
    | _ => (digits? cs).map Int.ofNat
  if Int64.minValue.toInt ≤ n ∧ n ≤ Int64.maxValue.toInt then some (Int64.ofInt n) else none

def parse? (text : String) : Option Span :=
  match fields ':' text.toList with
  | [offset, length, file] => do
    return ⟨← unsigned? offset, ← unsigned? length, ← signed? file⟩
  | _ => none

/-- Reads a span from its written form. -/
def parse (text : String) : Except Error Span :=
  match parse? text with
  | some span => .ok span
  | none => .error (.invalidLocation text)

/-- The written form of a span. -/
def render (s : Span) : String :=
  toString s.offset.toNat ++ ":" ++ toString s.length.toNat ++ ":" ++ toString s.fileIndex.toInt

/-- Spans are ordered by offset, then length, then file. -/
def le (a b : Span) : Bool :=
  a.offset < b.offset || (a.offset = b.offset &&
    (a.length < b.length || (a.length = b.length && a.fileIndex ≤ b.fileIndex)))

def sort (spans : List Span) : List Span := spans.mergeSort le

/-- The text a span covers. An empty span covers none, nor does one that leaves the source or cuts a
character in two. -/
def text? (s : Span) (source : String) : Option String :=
  if s.length = 0 then none
  else do
    let rest ← Utf8.drop? s.offset.toNat source.toList
    return String.ofList (← Utf8.take? s.length.toNat rest)

end Span

end ContractFlow
