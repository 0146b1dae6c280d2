import ContractFlow.Drawing
import ContractFlow.Search
import ContractFlow.Syntax.SourceUnit
import Std.Data.ExtTreeMap

/-!
The inheritance hierarchy of a program: which bases and functions each contract declares. Bases are
kept as they are written, also those that are not declared in the program.
-/

namespace ContractFlow

/-- What a contract declares. -/
structure ContractInfo where
  /-- The bases in the order they are written, with repetitions. -/
  baseContracts : List String
  /-- The functions other than constructors, each name once, in the order of their declarations. -/
  functions : List String
  deriving DecidableEq, Repr

namespace ContractInfo

def ofContract (c : ContractDefinition Node) : ContractInfo where
  baseContracts := c.baseContracts
  functions := ((c.functions.filter (!·.definition.isConstructor)).map (·.name)).eraseDups

def declares (info : ContractInfo) (function : String) : Bool := function ∈ info.functions

def record (info : ContractInfo) : Json :=
  .object [
    ("base_contracts", .strings info.baseContracts),
    ("functions", .strings info.functions)]

end ContractInfo

structure Hierarchy where
  contracts : Std.ExtTreeMap String ContractInfo
  deriving DecidableEq

namespace Hierarchy

/-- Of contracts with the same name, the last one counts. -/
def ofUnit (u : SourceUnit) : Hierarchy :=
  ⟨.ofList (u.contracts.map fun c => (c.name, ContractInfo.ofContract c))⟩

def contract? (h : Hierarchy) (name : String) : Option ContractInfo := h.contracts[name]?

/-- The names of the contracts, in increasing order. -/
def names (h : Hierarchy) : List String := h.contracts.keys

theorem mem_names_iff {h : Hierarchy} {name : String} :
    name ∈ h.names ↔ (h.contract? name).isSome = true := by
  rw [names, Std.ExtTreeMap.mem_keys, Std.ExtTreeMap.mem_iff_isSome_getElem?, contract?]

/-- Whether a contract itself declares a function. -/
def declares (h : Hierarchy) (contract function : String) : Bool :=
  (h.contract? contract).any (·.declares function)

/-- The bases that a contract lists; none for a name that is not in the hierarchy. -/
def listedBases (h : Hierarchy) (contract : String) : List String :=
  ((h.contract? contract).map (·.baseContracts)).getD []

theorem mem_listedBases_iff {h : Hierarchy} {contract base : String} :
    base ∈ h.listedBases contract ↔
    ∃ info, h.contract? contract = some info ∧ base ∈ info.baseContracts := by
  rw [listedBases]
  cases h.contract? contract <;> simp

/-- Every base of a contract, direct or inherited, each once, in the order a depth-first search
along the lists of bases meets them. Bases that are not in the hierarchy are left out. -/
def transitiveBases (h : Hierarchy) (contract : String) : List String :=
  Search.explore h.names h.listedBases [contract] (h.listedBases contract)

/-- The listed bases that are in the hierarchy, each once. -/
def directBases (h : Hierarchy) (contract : String) : List String :=
  ((h.listedBases contract).filter fun base =>
    h.contracts.contains base && base ≠ contract).eraseDups

/-- The name of a contract and of its functions, on lines of their own. -/
def label (name : String) (info : ContractInfo) : String :=
  "\n".intercalate (name :: info.functions)

/-- A node for each contract, and an edge from each base in the hierarchy to what is derived from
it. -/
def draw (h : Hierarchy) : Drawing where
  nodes := h.contracts.toList.map fun (name, info) => ⟨name, label name info, none⟩
  edges := h.contracts.toList.flatMap fun (name, info) =>
    (info.baseContracts.filter h.contracts.contains).map (⟨·, name, none⟩)

def record (h : Hierarchy) : Json :=
  .object [("contracts", .object (h.contracts.toList.map fun (name, info) => (name, info.record)))]

end Hierarchy

end ContractFlow
