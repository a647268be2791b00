import Symex.Scalar

/-!
The operators of expressions and instructions, with their algebraic properties. An operator that is
associative on both sides and has an identity element can absorb further operands into one node.
-/

namespace Symex

/-- An operator. -/
inductive Operator where
  | not
  | add
  | and
  | or
  | eq
  | lt
deriving DecidableEq, Repr, Inhabited

/-- Algebraic properties of an operator. -/
structure Operator.Attributes where
  leftAssoc : Bool := false
  rightAssoc : Bool := false
  comm : Bool := false
  hasIdentity : Bool := false
deriving DecidableEq, Repr

/-- The properties as a bit mask, in the order of the fields from the lowest bit. -/
def Operator.Attributes.mask (a : Operator.Attributes) : Nat :=
  a.leftAssoc.toNat + 2 * a.rightAssoc.toNat + 4 * a.comm.toNat + 8 * a.hasIdentity.toNat

namespace Operator

def all : List Operator := [.not, .add, .and, .or, .eq, .lt]

def symbol : Operator → String
  | .not => "!"
  | .add => "+"
  | .and => "&&"
  | .or => "||"
  | .eq => "=="
  | .lt => "<"

def attributes : Operator → Attributes
  | .add | .and | .or => ⟨true, true, true, true⟩
  | .eq => ⟨true, true, true, false⟩
  | .not | .lt => {}

def isUnary : Operator → Bool
  | .not => true
  | _ => false

/-- Whether the result is a `bool` whatever the operands are. -/
def isBoolean : Operator → Bool
  | .add => false
  | _ => true

/-- Whether a node of this operator may absorb further operands. -/
def absorbs (op : Operator) : Bool :=
  op.attributes.leftAssoc && op.attributes.rightAssoc && op.attributes.hasIdentity

def identity : Operator → Option Scalar
  | .add => some (.int 0)
  | .and => some (.bool true)
  | .or => some (.bool false)
  | .not | .eq | .lt => none

/-- Type of an application to operands of a type. -/
def resultTy (op : Operator) (operand : Ty) : Ty :=
  if op.isBoolean then .bool else operand

/-- Position in the list of all operators. -/
def rank : Operator → Nat
  | .not => 0
  | .add => 1
  | .and => 2
  | .or => 3
  | .eq => 4
  | .lt => 5

instance : Ord Operator where
  compare a b := compare a.rank b.rank

theorem absorbs_eq (op : Operator) : op.absorbs = op.identity.isSome := by
  cases op <;> rfl

end Operator

end Symex
