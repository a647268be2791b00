import Symex.Expr.Mint

/-!
Drafts: n-ary nodes that can still take operands. A closed node becomes a draft again only for a
holder who holds it alone; whoever else held it would otherwise see it change.
-/

namespace Symex

/-- An n-ary node that is not closed yet. -/
structure Draft where
  op : Operator
  operandTy : Ty
  operands : List Expr := []

namespace Draft

def append (b : Draft) (e : Expr) : Draft := { b with operands := b.operands ++ [e] }

def prepend (b : Draft) (e : Expr) : Draft := { b with operands := e :: b.operands }

def close (b : Draft) : Mint Expr := Mint.nary b.op b.operandTy b.operands

/-- Takes an application of `op` apart if it is held alone. -/
def ofExpr? (e : Expr) (op : Operator) (alone : Bool) : Option Draft :=
  match e with
  | .nary _ o ty es => if alone && o == op then some ⟨o, ty, es⟩ else none
  | _ => none

end Draft

/-- Whether none of the other live expressions reaches a node, so that its holder holds it alone. -/
def Expr.heldAlone (e : Expr) (others : List Expr) : Bool :=
  !(reachAll e.stamp others ∅).contains e.stamp

end Symex
