import Symex.Operator
import Symex.Scope.Phase
import Symex.Smt.Value

/-!
What can go wrong, and the wording of each cause.
-/

namespace Symex

/-- The cause of a failure. -/
inductive Error where
  /-- A type that an encoding has no sort for. -/
  | unsupportedType (ty : Ty)
  /-- A call that the phase of a conditional does not allow. -/
  | misplacedCall (call : Conditional.Call) (phase : Conditional.Phase)
  /-- A variable tracked by a loop that has started. -/
  | lateTrack (phase : Loop.Phase)
  /-- An n-ary application without operands. -/
  | emptyNary (op : Operator)
  /-- An n-ary application with too few operands for its operator. -/
  | partialNary (op : Operator)
  | noIdentity (op : Operator)
  | sortMismatch (expected found : Smt.TermSort)
  /-- A variable that a store does not hold. -/
  | unknownVariable (index : Nat)
  | solver (reason : String)
  /-- A constant that a model gives no value. -/
  | noValue (name : String)
  /-- A function that a model does not interpret. -/
  | noInterpretation (func : String)
  /-- Arguments at which a model's function has no value. -/
  | undefinedAt (func : String) (args : List Smt.Value)

namespace Error

private def quoted (s : String) : String := "`" ++ s ++ "`"

def message : Error → String
  | .unsupportedType ty => "Unsupported type - " ++ ty.name
  | .misplacedCall call phase =>
    "Malformed scope - " ++ quoted call.name ++ " on if scope in state " ++ phase.name
  | .lateTrack phase =>
    "Malformed scope - " ++ quoted "track" ++ " on loop scope in state " ++ phase.name
  | .emptyNary op => "Cannot encode n-ary " ++ quoted op.symbol ++ " without operands"
  | .partialNary op => "Cannot encode n-ary " ++ quoted op.symbol ++ " with a single operand"
  | .noIdentity op => "Operator " ++ quoted op.symbol ++ " has no identity element"
  | .sortMismatch expected found =>
    "Sort mismatch - expected " ++ expected.text ++ ", found " ++ found.text
  | .unknownVariable index => "Unknown variable - var#" ++ toString index
  | .solver reason => "Solver - " ++ reason
  | .noValue name => "Evaluation - " ++ quoted name ++ " has no value"
  | .noInterpretation func => "Evaluation - " ++ quoted func ++ " has no interpretation"
  | .undefinedAt func args =>
    "Evaluation - " ++ quoted func ++ " is undefined at " ++ Smt.Value.describeAll args

end Error

end Symex
