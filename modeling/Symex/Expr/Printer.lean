import Symex.Expr.Basic

/-!
The infix form of expressions, in parentheses throughout.
-/

namespace Symex.Expr

mutual
/-- A variable is written in brackets, a named literal with its value beside the name. -/
def text : Expr → String
  | .any _ name _ => "[" ++ name ++ "]"
  | .lit _ value none => value.text
  | .lit _ value (some name) => "[" ++ name ++ ":" ++ value.text ++ "]"
  | .cast _ ty e => "((" ++ ty.name ++ ")(" ++ e.text ++ "))"
  | .unary _ op e => "(" ++ op.symbol ++ e.text ++ ")"
  | .ite _ c y n => "(" ++ c.text ++ "?" ++ y.text ++ ":" ++ n.text ++ ")"
  | .nary _ op _ es => "(" ++ textOperands op.symbol es ++ ")"
/-- Operands with a symbol between them. -/
def textOperands (symbol : String) : List Expr → String
  | [] => ""
  | [e] => e.text
  | e :: es => e.text ++ symbol ++ textOperands symbol es
end

end Symex.Expr
