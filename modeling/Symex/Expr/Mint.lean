import Symex.Expr.Basic

/-!
Building nodes. Each new node takes the next stamp; operands keep theirs, so they are shared and not
copied.
-/

namespace Symex

/-- Computations that hand out stamps; the state is the next one. -/
abbrev Mint := StateM Nat

namespace Mint

def stamp : Mint Nat := modifyGet fun n => (n, n + 1)

def any (name : String) (ty : Ty) : Mint Expr := return .any (← stamp) name ty

def lit (value : Scalar) (name : Option String := none) : Mint Expr :=
  return .lit (← stamp) value name

def cast (ty : Ty) (e : Expr) : Mint Expr := return .cast (← stamp) ty e

def unary (op : Operator) (e : Expr) : Mint Expr := return .unary (← stamp) op e

def not (e : Expr) : Mint Expr := unary .not e

def ite (cond yes no : Expr) : Mint Expr := return .ite (← stamp) cond yes no

def nary (op : Operator) (operandTy : Ty) (operands : List Expr) : Mint Expr :=
  return .nary (← stamp) op operandTy operands

def binary (op : Operator) (operandTy : Ty) (l r : Expr) : Mint Expr := nary op operandTy [l, r]

end Mint

end Symex
