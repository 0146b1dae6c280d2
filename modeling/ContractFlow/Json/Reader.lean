import ContractFlow.Json.Number

/-!
Reading JSON text. The text is read one character at a time by a machine that holds the token being
read and a stack of the arrays and objects still open, so reading is a fold over the characters. The
reader is strict: one value, surrounded by blanks only; no control characters in strings, no lone
surrogate escapes, no leading zeros. Of two fields with the same key the later one counts.
-/

namespace ContractFlow.Json.Reader

/-- A complete token. -/
inductive Token where
  | openArray | closeArray | openObject | closeObject | comma | colon
  | text (s : String)
  | scalar (v : Json)

/-- An array or object that is still open, with what it holds so far, last element first. An object
also holds the key whose value is being read. -/
inductive Frame where
  | array (elements : List Json)
  | object (fields : List (String × Json)) (key : String)

/-- What the machine accepts next. -/
inductive Expect where
  | value
  /-- A value, or the end of the array just opened. -/
  | firstElement
  | key (fields : List (String × Json))
  /-- A key, or the end of the object just opened. -/
  | firstKey
  | colon (fields : List (String × Json)) (key : String)
  /-- A comma or the end, in an array. -/
  | nextElement (elements : List Json)
  /-- A comma or the end, in an object. -/
  | nextField (fields : List (String × Json))
  | nothing (result : Json)

structure Machine where
  frames : List Frame
  expect : Expect

/-- A later field replaces an earlier one with the same key. -/
def setField (fields : List (String × Json)) (key : String) (v : Json) : List (String × Json) :=
  (key, v) :: fields.filter (·.1 ≠ key)

/-- Hands a finished value to the innermost open array or object. -/
def Machine.finish (v : Json) : List Frame → Machine
  | [] => ⟨[], .nothing v⟩
  | .array elements :: frames => ⟨frames, .nextElement (v :: elements)⟩
  | .object fields key :: frames => ⟨frames, .nextField (setField fields key v)⟩

/-- The number of arrays and objects that are open. -/
def Machine.depth (m : Machine) : Nat :=
  m.frames.length + match m.expect with
    | .firstElement | .key _ | .firstKey | .colon .. | .nextElement _ | .nextField _ => 1
    | .value | .nothing _ => 0

/-- Begins a value. `limit` bounds how many arrays and objects may be open. -/
def Machine.begin (limit : Option Nat) (frames : List Frame) : Token → Option Machine
  | .openArray => opened ⟨frames, .firstElement⟩
  | .openObject => opened ⟨frames, .firstKey⟩
  | .text s => some (Machine.finish (.string s) frames)
  | .scalar v => some (Machine.finish v frames)
  | _ => none
where
  opened (m : Machine) : Option Machine :=
    if limit.all (m.depth ≤ ·) then some m else none

def Machine.step (limit : Option Nat) (m : Machine) (t : Token) : Option Machine :=
  match m.expect, t with
  | .value, t => Machine.begin limit m.frames t
  | .firstElement, .closeArray => some (Machine.finish (.array []) m.frames)
  | .firstElement, t => Machine.begin limit (.array [] :: m.frames) t
  | .firstKey, .closeObject => some (Machine.finish (.object []) m.frames)
  | .firstKey, .text key => some ⟨m.frames, .colon [] key⟩
  | .key fields, .text key => some ⟨m.frames, .colon fields key⟩
  | .colon fields key, .colon => some ⟨.object fields key :: m.frames, .value⟩
  | .nextElement elements, .comma => some ⟨.array elements :: m.frames, .value⟩
  | .nextElement elements, .closeArray => some (Machine.finish (.array elements.reverse) m.frames)
  | .nextField fields, .comma => some ⟨m.frames, .key fields⟩
  | .nextField fields, .closeObject => some (Machine.finish (.object fields.reverse) m.frames)
  | _, _ => none

/-- The token being read. Characters read so far are kept last first. -/
inductive Lexeme where
  | blank
  | word (letters : List Char)
  | number (chars : List Char)
  | text (chars : List Char)
  | escape (chars : List Char)
  /-- After a backslash and `u`: the value of the digits read, how many are still missing, and the
  high surrogate that the escape must complete, if there is one. -/
  | hex (chars : List Char) (value missing : Nat) (high : Option Nat)
  /-- After the escape of a high surrogate: its low surrogate must follow as an escape. -/
  | lowBackslash (chars : List Char) (high : Nat)
  | lowMark (chars : List Char) (high : Nat)

structure State where
  machine : Machine
  lexeme : Lexeme

def word? (letters : List Char) : Option Json :=
  if letters = "null".toList then some .null
  else if letters = "true".toList then some (.bool true)
  else if letters = "false".toList then some (.bool false)
  else none

def punctuation? (c : Char) : Option Token :=
  match c with
  | '[' => some .openArray
  | ']' => some .closeArray
  | '\x7b' => some .openObject
  | '\x7d' => some .closeObject
  | ',' => some .comma
  | ':' => some .colon
  | _ => none

def isBlank (c : Char) : Bool :=
  c = ' ' || c = '\t' || c = '\n' || c = '\r'

def isNumberChar (c : Char) : Bool :=
  c.isDigit || c = '-' || c = '+' || c = '.' || c = 'e' || c = 'E'

def hexDigit? (c : Char) : Option Nat :=
  if c.isDigit then some (c.toNat - '0'.toNat)
  else if 'a' ≤ c ∧ c ≤ 'f' then some (c.toNat - 'a'.toNat + 10)
  else if 'A' ≤ c ∧ c ≤ 'F' then some (c.toNat - 'A'.toNat + 10)
  else none

/-- The character that a one-letter escape stands for. -/
def escaped? (c : Char) : Option Char :=
  match c with
  | '"' => some '"'
  | '\\' => some '\\'
  | '/' => some '/'
  | 'b' => some '\x08'
  | 'f' => some '\x0c'
  | 'n' => some '\n'
  | 'r' => some '\r'
  | 't' => some '\t'
  | _ => none

def isHighSurrogate (n : Nat) : Bool := 0xD800 ≤ n && n < 0xDC00

def isLowSurrogate (n : Nat) : Bool := 0xDC00 ≤ n && n < 0xE000

/-- The lexeme after the four digits of a `u` escape. -/
def unit? (chars : List Char) (n : Nat) : Option Nat → Option Lexeme
  | some high =>
    if isLowSurrogate n then
      some (.text (Char.ofNat (0x10000 + (high - 0xD800) * 0x400 + (n - 0xDC00)) :: chars))
    else none
  | none =>
    if isHighSurrogate n then some (.lowBackslash chars n)
    else if isLowSurrogate n then none
    else some (.text (Char.ofNat n :: chars))

/-- Reads a character between tokens. -/
def fromBlank (limit : Option Nat) (m : Machine) (c : Char) : Option State :=
  if isBlank c then some ⟨m, .blank⟩
  else if c = '"' then some ⟨m, .text []⟩
  else if c.isDigit || c = '-' then some ⟨m, .number [c]⟩
  else if c.isLower then some ⟨m, .word [c]⟩
  else do return ⟨← m.step limit (← punctuation? c), .blank⟩

/-- Completes the token that only the next character, or the end of the text, shows to be over. -/
def State.settle (limit : Option Nat) (s : State) : Option Machine :=
  match s.lexeme with
  | .blank => some s.machine
  | .word letters => do s.machine.step limit (.scalar (← word? letters.reverse))
  | .number chars => do s.machine.step limit (.scalar (← Number.read? chars.reverse))
  | _ => none

def State.step (limit : Option Nat) (s : State) (c : Char) : Option State :=
  match s.lexeme with
  | .blank => fromBlank limit s.machine c
  | .word letters =>
    if c.isLower then some { s with lexeme := .word (c :: letters) }
    else do fromBlank limit (← s.settle limit) c
  | .number chars =>
    if isNumberChar c then some { s with lexeme := .number (c :: chars) }
    else do fromBlank limit (← s.settle limit) c
  | .text chars =>
    if c = '"' then do
      return ⟨← s.machine.step limit (.text (String.ofList chars.reverse)), .blank⟩
    else if c = '\\' then some { s with lexeme := .escape chars }
    else if c < ' ' then none
    else some { s with lexeme := .text (c :: chars) }
  | .escape chars =>
    if c = 'u' then some { s with lexeme := .hex chars 0 4 none }
    else do return { s with lexeme := .text ((← escaped? c) :: chars) }
  | .hex chars value missing high => do
    let value := 16 * value + (← hexDigit? c)
    if missing ≤ 1 then return { s with lexeme := ← unit? chars value high }
    else return { s with lexeme := .hex chars value (missing - 1) high }
  | .lowBackslash chars high =>
    if c = '\\' then some { s with lexeme := .lowMark chars high } else none
  | .lowMark chars high =>
    if c = 'u' then some { s with lexeme := .hex chars 0 4 (some high) } else none

end Reader

/-- Reads JSON text. `limit` bounds how deeply arrays and objects may be nested. -/
def parse? (limit : Option Nat) (text : String) : Option Json := do
  let start : Reader.State := ⟨⟨[], .value⟩, .blank⟩
  let final ← text.toList.foldlM (Reader.State.step limit) start
  match (← final.settle limit).expect with
  | .nothing result => return result
  | _ => failure

/-- How deeply arrays and objects may be nested in a syntax tree that is read from text. -/
def depthLimit : Nat := 127

end ContractFlow.Json
