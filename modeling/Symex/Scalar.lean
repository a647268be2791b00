import Symex.Ty

/-!
Scalars: values of the primitive types, integers as two's complement words of their type's width.
A scalar is converted through the integer it denotes, so narrowing drops high bits, widening keeps
the value, and a number becomes `true` unless it is zero.
-/

namespace Symex

/-- A value of a primitive type. -/
inductive Scalar where
  | bool (b : Bool)
  | char (v : BitVec 8)
  | short (v : BitVec 16)
  | int (v : BitVec 32)
deriving DecidableEq, Repr

namespace Scalar

def ty : Scalar → Ty
  | .bool _ => .bool
  | .char _ => .char
  | .short _ => .short
  | .int _ => .int

/-- The integer a scalar denotes; `true` is one. -/
def toInt : Scalar → Int
  | .bool b => if b then 1 else 0
  | .char v => v.toInt
  | .short v => v.toInt
  | .int v => v.toInt

/-- The scalar of a type that is congruent to an integer; as a `bool`, whether it is not zero. -/
def ofInt : Ty → Int → Scalar
  | .bool, i => .bool (i != 0)
  | .char, i => .char (.ofInt 8 i)
  | .short, i => .short (.ofInt 16 i)
  | .int, i => .int (.ofInt 32 i)

def convert (s : Scalar) (ty : Ty) : Scalar := ofInt ty s.toInt

def zero (ty : Ty) : Scalar := ofInt ty 0

/-- The bit pattern, read as an unsigned number. -/
def toBits : Scalar → Nat
  | .bool b => b.toNat
  | .char v => v.toNat
  | .short v => v.toNat
  | .int v => v.toNat

/-- The word of a scalar after promotion to `int`. -/
def promoted (s : Scalar) : BitVec 32 := .ofInt 32 s.toInt

/-- Whether a scalar counts as true. -/
def isTrue (s : Scalar) : Bool := s.toInt != 0

def text (s : Scalar) : String := toString s.toInt

/-- Types come first, then values. -/
instance : Ord Scalar where
  compare a b := (compare a.ty b.ty).then (compare a.toInt b.toInt)

instance : Inhabited Scalar := ⟨.bool false⟩

@[simp] theorem ty_ofInt (ty : Ty) (i : Int) : (ofInt ty i).ty = ty := by
  cases ty <;> rfl

@[simp] theorem ty_convert (s : Scalar) (ty : Ty) : (s.convert ty).ty = ty :=
  ty_ofInt ty s.toInt

@[simp] theorem ty_zero (ty : Ty) : (zero ty).ty = ty := ty_ofInt ty 0

theorem ofInt_toInt (s : Scalar) : ofInt s.ty s.toInt = s := by
  cases s with
  | bool b => cases b <;> rfl
  | char v => simp [ty, toInt, ofInt]
  | short v => simp [ty, toInt, ofInt]
  | int v => simp [ty, toInt, ofInt]

/-- A conversion to the type a scalar already has changes nothing. -/
@[simp] theorem convert_ty (s : Scalar) : s.convert s.ty = s := ofInt_toInt s

end Scalar

end Symex
