import Symex.Expr.Basic
import Symex.Smt.Script

/-!
Expressions as terms over booleans and integers. The free variables met on the way are noted with
their sorts, also those met before a failure. Types between `bool` and `int` have no sort here.
-/

namespace Symex

open Smt (Term TermSort)

/-- The free variables met so far. -/
abbrev FreeSorts := Table String TermSort

/-- Computations that note free variables, also when they fail. -/
abbrev Encoding := ExceptT Error (StateM FreeSorts)

/-- Declares the noted variables by ascending name. -/
def FreeSorts.declareIn (fs : FreeSorts) (s : Smt.Script) : Smt.Script :=
  fs.foldl (fun s v => s.declare (.const v.1 v.2)) s

def Ty.termSort : Ty → Except Error TermSort
  | .bool => .ok .bool
  | .int => .ok .int
  | ty => .error (.unsupportedType ty)

def Scalar.term : Scalar → Except Error Term
  | .bool b => .ok (.bool b)
  | .int v => .ok (.int v.toInt)
  | s => .error (.unsupportedType s.ty)

/-- The identity element of an operator as a term. -/
def Operator.identityTerm (op : Operator) : Except Error Term :=
  match op.identity with
  | none => .error (.noIdentity op)
  | some s => s.term

/-- A term converted between the sorts of two types. -/
def castTerm : Ty → Ty → Term → Term
  | .bool, .int, t => .ite t (.int 1) (.int 0)
  | .int, .bool, t => .not (.eq t (.int 0))
  | _, _, t => t

/-- An operator applied to terms. One term alone stands for its application if the operator has an
identity element. -/
def Operator.applyTerms (op : Operator) : List Term → Except Error Term
  | [] => .error (.emptyNary op)
  | [t] => if op.identity.isSome then .ok t else .error (.partialNary op)
  | ts =>
    match op with
    | .add => .ok (.add ts)
    | .and => .ok (.and ts)
    | .or => .ok (.or ts)
    | .eq => .ok (.chain .eq ts)
    | .lt => .ok (.chain .lt ts)
    | .not => .error (.partialNary op)

namespace Expr

mutual
def encode : Expr → Encoding Term
  | .any _ name ty => do
    let s ← ty.termSort
    modify (·.insert name s)
    return .const name s
  | .lit _ value _ => value.term
  | .cast _ ty e => do
    let _ ← e.ty.termSort
    let _ ← ty.termSort
    return castTerm e.ty ty (← encode e)
  | .unary _ _ e => return .not (← encode e)
  | .ite _ c y n => do
    let c ← encode c
    let y ← encode y
    return .ite c y (← encode n)
  | .nary _ op _ es => do op.applyTerms (← encodeAll es)
def encodeAll : List Expr → Encoding (List Term)
  | [] => return []
  | e :: es => do
    let t ← encode e
    return t :: (← encodeAll es)
end

/-- Encodes expressions one after another; one that fails does not stop the others. -/
def encodeEach (free : FreeSorts) : List Expr → List (Except Error Term) × FreeSorts
  | [] => ([], free)
  | e :: es =>
    let (t, free) := e.encode.run.run free
    let (ts, free) := encodeEach free es
    (t :: ts, free)

end Expr

end Symex
