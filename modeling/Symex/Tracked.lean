import Symex.Error
import Symex.Expr.Draft
import Symex.Expr.Printer

/-!
Tracked values: a scalar with an optional symbolic companion. A value is *symbolic* when it has a
companion and *concrete* when it was derived from literals only; neither follows from the other.

An operator keeps the companions of its operands and puts a new node above them, unless an operand
is itself an application of that operator that nobody else holds: then the other operand is added to
it. Who holds what is answered by an `Ownership`.
-/

namespace Symex

/-- Computations that build nodes and can fail. -/
abbrev Build := StateT Nat (Except Error)

instance : MonadLift Mint Build where
  monadLift x := fun n => .ok (x n)

/-- Data with an optional companion. -/
structure Dual where
  data : Scalar
  companion : Option Expr
deriving DecidableEq, Inhabited

namespace Dual

/-- The companion, or a literal of the data. -/
def toExpr (d : Dual) : Mint Expr :=
  match d.companion with
  | some e => return e
  | none => Mint.lit d.data

/-- The expression an operator of an operand type applies to. -/
def operand (d : Dual) (ty : Ty) : Mint Expr := do
  let e ← d.toExpr
  if d.data.ty = ty then return e else Mint.cast ty e

/-- Whether two pieces of data are known to be the same: their companions are one node, or both have
none and the data are equal. -/
def same (a b : Dual) : Bool :=
  match a.companion, b.companion with
  | some e, some f => e = f
  | none, none => a.data = b.data
  | _, _ => false

/-- Takes the companion apart to add an operand, if it applies the same operator to operands of the
same type and is held alone. -/
def draft? (d : Dual) (op : Operator) (ty : Ty) (alone : Bool) : Option Draft :=
  match d.companion with
  | some e => if op.absorbs && d.data.ty = ty then Draft.ofExpr? e op alone else none
  | none => none

end Dual

/-- Which operands hold their companions alone. -/
structure Ownership where
  left : Bool
  right : Bool

/-- The companion of an application to two operands. -/
def Operator.applyDuals (op : Operator) (ty : Ty) (l r : Dual) (own : Ownership) : Mint Expr :=
  match l.draft? op ty own.left with
  | some b => do (b.append (← r.operand ty)).close
  | none =>
    match r.draft? op ty own.right with
    | some b => do (b.prepend (← l.operand ty)).close
    | none => do
      let x ← l.operand ty
      let y ← r.operand ty
      Mint.binary op ty x y

/-- The state of a variable. -/
structure Slot extends Dual where
  concrete : Bool
  version : Nat
deriving DecidableEq, Inhabited

/-- The variable and the version a value was read at. -/
structure Origin where
  index : Nat
  version : Nat
deriving DecidableEq, Repr

/-- A tracked value. -/
structure Tracked extends Slot where
  origin : Option Origin
deriving DecidableEq, Inhabited

namespace Tracked

/-- A value without a companion. -/
def new (data : Scalar) : Tracked := ⟨⟨⟨data, none⟩, true, 0⟩, none⟩

/-- A concrete value with a companion. -/
def withExpr (data : Scalar) (e : Expr) : Tracked := ⟨⟨⟨data, some e⟩, true, 0⟩, none⟩

/-- A free variable; its data are zero. -/
def any (name : String) (ty : Ty) : Mint Tracked :=
  return ⟨⟨⟨.zero ty, some (← Mint.any name ty)⟩, false, 0⟩, none⟩

def ty (v : Tracked) : Ty := v.data.ty

def isSymbolic (v : Tracked) : Bool := v.companion.isSome

def isTrue (v : Tracked) : Bool := v.data.isTrue

def text (v : Tracked) : String :=
  match v.companion with
  | some e => e.text
  | none => v.data.text

/-- Gives a value a leaf of its own: a named literal if it is concrete, else a free variable. -/
def symbolize (v : Tracked) (name : String) : Mint Tracked :=
  if v.concrete then return { v with companion := some (← Mint.lit v.data (some name)) }
  else return { v with companion := some (← Mint.any name v.ty) }

/-- Converts a value. A companion is wrapped in a cast only if the type changes. -/
def cast (v : Tracked) (ty : Ty) : Mint Tracked :=
  if v.ty = ty then return v
  else do
    let companion ← v.companion.mapM (Mint.cast ty)
    return { v with data := v.data.convert ty, companion, origin := none }

/-- Takes data and companion from a source, converted to the type the value has. -/
def assign (v source : Tracked) : Mint Tracked := do
  let c ← source.cast v.ty
  return { v with
    data := c.data
    companion := c.companion
    version := max (v.version + 1) source.version }

/-! ### Operators -/

/-- A result computed from two operands; it is symbolic if one of them is. -/
def combine (op : Operator) (operandTy : Ty) (data : Scalar) (l r : Tracked) (own : Ownership) :
    Mint Tracked := do
  let companion ←
    if l.isSymbolic || r.isSymbolic then
      some <$> op.applyDuals operandTy l.toDual r.toDual own
    else
      pure none
  return ⟨⟨⟨data, companion⟩, l.concrete && r.concrete, 0⟩, none⟩

/-- The sum, at the width of `int`. -/
def add (l r : Tracked) (own : Ownership) : Mint Tracked :=
  combine .add (l.ty.common r.ty) (.int (l.data.promoted + r.data.promoted)) l r own

def lt (l r : Tracked) (own : Ownership) : Mint Tracked :=
  combine .lt (l.ty.common r.ty) (.bool (l.data.promoted.slt r.data.promoted)) l r own

def equals (l r : Tracked) (own : Ownership) : Mint Tracked :=
  combine .eq (l.ty.common r.ty) (.bool (l.data.promoted == r.data.promoted)) l r own

def and (l r : Tracked) (own : Ownership) : Mint Tracked :=
  combine .and .bool (.bool (l.isTrue && r.isTrue)) l r own

def or (l r : Tracked) (own : Ownership) : Mint Tracked :=
  combine .or .bool (.bool (l.isTrue || r.isTrue)) l r own

def not (v : Tracked) : Mint Tracked := do
  let companion ← v.companion.mapM Mint.not
  return ⟨⟨⟨.bool !v.isTrue, companion⟩, v.concrete, 0⟩, none⟩

end Tracked

end Symex
