/-!
The four primitive types a tracked value can have. They are ordered from narrow to wide; every one
of them is promoted to `int` before it is added or compared.
-/

namespace Symex

/-- A primitive type. -/
inductive Ty where
  | bool
  | char
  | short
  | int
deriving DecidableEq, Repr, Inhabited

namespace Ty

/-- All types, narrow ones first. -/
def all : List Ty := [.bool, .char, .short, .int]

/-- Number of bits of a value. -/
def width : Ty → Nat
  | .bool => 1
  | .char => 8
  | .short => 16
  | .int => 32

/-- The spelling used in casts. -/
def name : Ty → String
  | .bool => "bool"
  | .char => "char"
  | .short => "short"
  | .int => "int"

/-- The type an operand takes before arithmetic: no type is wider than `int`. -/
def promoted : Ty → Ty
  | .bool | .char | .short | .int => .int

/-- The type in which operands of two types meet: the wider of the promoted ones. -/
def common (a b : Ty) : Ty :=
  if b.promoted.width ≤ a.promoted.width then a.promoted else b.promoted

instance : Ord Ty where
  compare a b := compare a.width b.width

@[simp] theorem common_eq_int (a b : Ty) : a.common b = .int := by
  cases a <;> cases b <;> rfl

end Ty

end Symex
