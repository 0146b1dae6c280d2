import Std.Data.ExtTreeSet

/-!
JSON values, as the compiler's syntax trees are written in them. A number is an integer only when it
is written as one and fits into 64 bits; every other number is a decimal, which no field of a syntax
tree reads. `Json.Inside v` is the type of the values strictly inside `v`: readers that descend only
to them terminate. Sets of names are written as arrays.
-/

namespace ContractFlow

inductive Json where
  | null
  | bool (b : Bool)
  | integer (n : Int)
  /-- The number `significand * 10 ^ exponent`. -/
  | decimal (significand exponent : Int)
  | string (s : String)
  | array (elements : List Json)
  /-- The keys of a value that was read are distinct; of two equal keys the first counts. -/
  | object (fields : List (String × Json))
  deriving Inhabited

namespace Json

def ofNat (n : Nat) : Json := .integer n

/-- An absent value is written `null`. -/
def ofOption {α : Type} (write : α → Json) : Option α → Json
  | some a => write a
  | none => .null

def strings (names : List String) : Json := .array (names.map .string)

/-- The field `name` of an object. Other values have no fields. -/
def get? : Json → String → Option Json
  | .object fields, name => fields.lookup name
  | _, _ => none

/-- The field `name`, read through a value that may itself be missing. -/
def path? (v : Json) : List String → Option Json
  | [] => some v
  | name :: rest => (v.get? name).bind (·.path? rest)

def toString? : Json → Option String
  | .string s => some s
  | _ => none

def toBool? : Json → Option Bool
  | .bool b => some b
  | _ => none

def toArray? : Json → Option (List Json)
  | .array elements => some elements
  | _ => none

def isNull : Json → Bool
  | .null => true
  | _ => false

/-- An integer in the unsigned 64-bit range. -/
def toUInt64? : Json → Option UInt64
  | .integer n => if 0 ≤ n ∧ n < UInt64.size then some (UInt64.ofNat n.toNat) else none
  | _ => none

/-- An integer in the signed 64-bit range. -/
def toInt64? : Json → Option Int64
  | .integer n =>
    if Int64.minValue.toInt ≤ n ∧ n ≤ Int64.maxValue.toInt then some (Int64.ofInt n) else none
  | _ => none

/-- The string in the field `name`. -/
def stringAt? (v : Json) (name : String) : Option String :=
  (v.get? name).bind toString?

theorem sizeOf_lt_of_lookup {fields : List (String × Json)} {name : String} {w : Json}
    (h : fields.lookup name = some w) : sizeOf w < sizeOf fields := by
  induction fields with
  | nil => simp at h
  | cons field rest ih =>
    obtain ⟨key, value⟩ := field
    simp only [List.lookup_cons] at h
    split at h
    · simp only [Option.some.injEq] at h
      subst h
      simp only [List.cons.sizeOf_spec, Prod.mk.sizeOf_spec]
      omega
    · have := ih h
      simp only [List.cons.sizeOf_spec]
      omega

theorem sizeOf_lt_of_get? {v w : Json} {name : String} (h : v.get? name = some w) :
    sizeOf w < sizeOf v := by
  cases v with
  | object fields =>
    have := sizeOf_lt_of_lookup (h : fields.lookup name = some w)
    simp only [object.sizeOf_spec]
    omega
  | _ => simp [get?] at h

/-- The values strictly inside `v`. -/
abbrev Inside (v : Json) : Type := { w : Json // sizeOf w < sizeOf v }

namespace Inside

variable {v : Json}

/-- What is inside a value inside `v` is inside `v`. -/
def lift (w : v.Inside) (u : w.val.Inside) : v.Inside :=
  ⟨u.val, Nat.lt_trans u.property w.property⟩

/-- The elements of an array inside `v`. -/
def elements? (w : v.Inside) : Option (List v.Inside) :=
  match h : w.val with
  | .array elements => some <| elements.attach.map fun e =>
      ⟨e.val, by
        have he := List.sizeOf_lt_of_mem e.property
        have hw := w.property
        simp only [h, array.sizeOf_spec] at hw
        omega⟩
  | _ => none

end Inside

/-- The field `name` of `v`, as a value inside `v`. -/
def inside? (v : Json) (name : String) : Option v.Inside :=
  match h : v.get? name with
  | some w => some ⟨w, sizeOf_lt_of_get? h⟩
  | none => none

end Json

/-- Sets of names, ordered by code point. -/
abbrev Names : Type := Std.ExtTreeSet String

def Names.record (s : Names) : Json := .strings s.toList

end ContractFlow
