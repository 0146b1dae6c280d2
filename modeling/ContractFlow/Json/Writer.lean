import ContractFlow.Json.Value

/-!
Writing JSON text, in one line (`Json.compress`) or indented by two blanks a level (`Json.pretty`).
Strings escape the quote, the backslash and the control characters below U+0020, and nothing else.
-/

namespace ContractFlow.Json

/-- A lower-case hexadecimal digit. -/
def hexDigit (n : Nat) : Char :=
  if n < 10 then Char.ofNat ('0'.toNat + n) else Char.ofNat ('a'.toNat + (n - 10))

/-- How a character is written inside a string. -/
def escapeChar (c : Char) : List Char :=
  match c with
  | '"' => ['\\', '"']
  | '\\' => ['\\', '\\']
  | '\x08' => ['\\', 'b']
  | '\x0c' => ['\\', 'f']
  | '\n' => ['\\', 'n']
  | '\r' => ['\\', 'r']
  | '\t' => ['\\', 't']
  | c =>
    if c < ' ' then ['\\', 'u', '0', '0', hexDigit (c.toNat / 16), hexDigit (c.toNat % 16)]
    else [c]

def quoted (s : String) : String :=
  String.ofList ('"' :: s.toList.flatMap escapeChar ++ ['"'])

/-- The text of a value without parts. -/
def scalarText : Json → String
  | .bool b => if b then "true" else "false"
  | .integer n => toString n
  | .decimal significand exponent => toString significand ++ "e" ++ toString exponent
  | .string s => quoted s
  | _ => "null"

mutual
/-- Writes a value in one line. -/
def compress : Json → String
  | .array elements => "[" ++ ",".intercalate (compressAll elements) ++ "]"
  | .object fields => "\x7b" ++ ",".intercalate (compressFields fields) ++ "\x7d"
  | v => v.scalarText
def compressAll : List Json → List String
  | [] => []
  | v :: rest => v.compress :: compressAll rest
def compressFields : List (String × Json) → List String
  | [] => []
  | (key, v) :: rest => (quoted key ++ ":" ++ v.compress) :: compressFields rest
end

/-- Puts items on lines of their own between two brackets. -/
def bracket (indent : String) (left right : String) (items : List String) : String :=
  if items.isEmpty then left ++ right
  else
    left ++ "\n" ++ ",\n".intercalate (items.map (indent ++ "  " ++ ·)) ++ "\n" ++ indent ++ right

mutual
/-- Writes a value that stands at the given indentation. -/
def prettyAt (indent : String) : Json → String
  | .array elements => bracket indent "[" "]" (prettyAll (indent ++ "  ") elements)
  | .object fields => bracket indent "\x7b" "\x7d" (prettyFields (indent ++ "  ") fields)
  | v => v.scalarText
def prettyAll (indent : String) : List Json → List String
  | [] => []
  | v :: rest => v.prettyAt indent :: prettyAll indent rest
def prettyFields (indent : String) : List (String × Json) → List String
  | [] => []
  | (key, v) :: rest => (quoted key ++ ": " ++ v.prettyAt indent) :: prettyFields indent rest
end

/-- Writes a value over several lines. -/
def pretty (v : Json) : String := v.prettyAt ""

end ContractFlow.Json
