import ContractFlow.Error
import ContractFlow.Json.Value

/-!
Failures that are recorded instead of ending the work: a function, or another member of a file or
contract, that could not be read or analysed.
-/

namespace ContractFlow

structure Failure where
  /-- The contract that declares the function; none at file level. -/
  contract : Option String
  function : String
  functionId : UInt64
  error : Error
  deriving DecidableEq, Repr

/-- `Contract.function`, or the bare name at file level. -/
def qualifiedName (contract : Option String) (function : String) : String :=
  match contract with
  | some contract => contract ++ "." ++ function
  | none => function

namespace Failure

def message (f : Failure) : String :=
  qualifiedName f.contract f.function ++ " (node id " ++ toString f.functionId ++ "): " ++
    f.error.message

def record (f : Failure) : Json :=
  .object [
    ("contract", .ofOption .string f.contract),
    ("function", .string f.function),
    ("function_id", .ofNat f.functionId.toNat),
    ("error", .string f.error.message)]

end Failure

end ContractFlow
