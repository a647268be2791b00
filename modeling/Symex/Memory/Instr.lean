import Symex.Memory.FirstUses
import Symex.Memory.Zone
import Symex.Operator
import Symex.Smt.Sort

/-!
Accesses to memory and the instructions that compute with the values they see.
-/

namespace Symex

/-- The sort of values of a type in memory. -/
def Ty.wordSort : Ty → Smt.TermSort
  | .bool => .bool
  | ty => .bitVec ty.width

namespace Memory

/-- The shape of accessed memory. -/
inductive Shape where
  | scalar (ty : Ty)
  | array (element : Ty)
deriving DecidableEq, Repr

namespace Shape

def element : Shape → Ty
  | .scalar ty | .array ty => ty

def sort : Shape → Smt.TermSort
  | .scalar ty => ty.wordSort
  | .array ty => .arrayOf ty.wordSort

end Shape

/-- The kind of an access. -/
inductive AccessKind where
  | read
  /-- A write of a whole scalar or array. -/
  | direct
  /-- A write of one element of an array. -/
  | indirect
deriving DecidableEq, Repr

/-- An access to memory. -/
structure Access where
  /-- Position in program order, from one. -/
  id : Nat
  kind : AccessKind
  shape : Shape
  addr : Address

namespace Access

def isRead (a : Access) : Bool := a.kind = .read

def isWrite (a : Access) : Bool := !a.isRead

def zone (a : Access) : Zone := a.addr.zone

def sort (a : Access) : Smt.TermSort := a.shape.sort

def text (a : Access) : String :=
  let letter :=
    match a.kind with
    | .read => "r"
    | .direct => "w"
    | .indirect => "iw"
  letter ++ toString a.id ++ "@" ++ a.zone.text

end Access

/-- A value computed from literals and accesses. -/
inductive Instr where
  | lit (value : Scalar)
  /-- The value an access sees. -/
  | seen (a : Access)
  | unary (op : Operator) (operand : Instr)
  | binary (op : Operator) (l r : Instr)
  | nary (op : Operator) (ty : Ty) (operands : List Instr)
  /-- An element of an array. -/
  | deref (memory offset : Instr)

namespace Instr

/-- Type of the value; an array has the type of its elements. -/
def ty : Instr → Ty
  | .lit value => value.ty
  | .seen a => a.shape.element
  | .unary _ _ => .bool
  | .binary op l _ => op.resultTy l.ty
  | .nary op ty _ => op.resultTy ty
  | .deref memory _ => memory.ty

mutual
/-- The accesses in an instruction from left to right. -/
def accesses : Instr → List Access
  | .lit _ => []
  | .seen a => [a]
  | .unary _ i => i.accesses
  | .binary _ l r => l.accesses ++ r.accesses
  | .nary _ _ is => accessesAll is
  | .deref m o => m.accesses ++ o.accesses
def accessesAll : List Instr → List Access
  | [] => []
  | i :: is => i.accesses ++ accessesAll is
end

theorem accessesAll_eq_flatMap (is : List Instr) : accessesAll is = is.flatMap accesses := by
  induction is with
  | nil => rfl
  | cons i is ih => simp [accessesAll, ih]

/-- The accesses a value depends on, each once, in the order of their first use. -/
def reads (i : Instr) : List Access := firstUses Access.id i.accesses

mutual
def text : Instr → String
  | .lit value => value.text
  | .seen a => "[" ++ a.text ++ "]"
  | .unary op i => "(" ++ op.symbol ++ i.text ++ ")"
  | .binary op l r => "(" ++ l.text ++ op.symbol ++ r.text ++ ")"
  | .nary op _ is => "(" ++ textOperands op.symbol is ++ ")"
  | .deref m o => m.text ++ "[" ++ o.text ++ "]"
/-- Operands with a symbol between them. -/
def textOperands (symbol : String) : List Instr → String
  | [] => ""
  | [i] => i.text
  | i :: is => i.text ++ symbol ++ textOperands symbol is
end

end Instr

end Memory

end Symex
