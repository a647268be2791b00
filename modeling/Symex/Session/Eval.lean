import Symex.Session.State

/-!
Evaluation of forms. Operands are computed from left to right; while a later one is computed, the
earlier ones are in flight and count as live.
-/

namespace Symex.Session

mutual
def evalExpr : ExprForm → Run Expr
  | .any name ty => mint (Mint.any name ty)
  | .lit value name => mint (Mint.lit value name)
  | .cast ty e => do
    let e ← evalExpr e
    mint (Mint.cast ty e)
  | .unary op e => do
    let e ← evalExpr e
    mint (Mint.unary op e)
  | .ite c y n => do
    let c ← evalExpr c
    let y ← evalExpr y
    let n ← evalExpr n
    mint (Mint.ite c y n)
  | .nary op ty es => do
    let es ← evalExprs es
    mint (Mint.nary op ty es)
  | .ref name => namedExpr name
  | .take name => do
    let e ← namedExpr name
    let _ ← dropName .expr name
    return e
  | .companionOf name => do need name (← value name).companion
def evalExprs : List ExprForm → Run (List Expr)
  | [] => return []
  | e :: es => do
    let e ← evalExpr e
    return e :: (← evalExprs es)
end

/-- Which of two operands in flight hold their companions alone. -/
def ownership (inFlight : List Expr) (l r : Tracked) : Run Ownership := do
  let others := inFlight ++ (← get).live
  return {
    left := l.companion.any (·.heldAlone (r.companion.toList ++ others))
    right := r.companion.any (·.heldAlone (l.companion.toList ++ others)) }

def needBool (v : Tracked) : Run Tracked :=
  if v.ty = .bool then return v else throw (.unfit "bool")

def evalValue (inFlight : List Expr) : ValueForm → Run Tracked
  | .new data => return .new data
  | .any name ty => mint (Tracked.any name ty)
  | .withExpr data e => return .withExpr data (← evalExpr e)
  | .copy name => value name
  | .take name => do
    let v ← value name
    let _ ← dropName .value name
    return v
  | .get x st => do
    let x ← var x
    lift ((← store st).get x)
  | .add l r => do
    let l ← evalValue inFlight l
    let r ← evalValue (l.companion.toList ++ inFlight) r
    mint (l.add r (← ownership inFlight l r))
  | .lt l r => do
    let l ← evalValue inFlight l
    let r ← evalValue (l.companion.toList ++ inFlight) r
    mint (l.lt r (← ownership inFlight l r))
  | .equals l r => do
    let l ← evalValue inFlight l
    let r ← evalValue (l.companion.toList ++ inFlight) r
    mint (l.equals r (← ownership inFlight l r))
  | .and l r => do
    let l ← evalValue inFlight l
    let r ← evalValue (l.companion.toList ++ inFlight) r
    mint ((← needBool l).and (← needBool r) (← ownership inFlight l r))
  | .or l r => do
    let l ← evalValue inFlight l
    let r ← evalValue (l.companion.toList ++ inFlight) r
    mint ((← needBool l).or (← needBool r) (← ownership inFlight l r))
  | .not v => do mint (← needBool (← evalValue inFlight v)).not
  | .cast ty v => do mint ((← evalValue inFlight v).cast ty)

/-- A value that has to be a `bool`. -/
def evalGuard (inFlight : List Expr) (v : ValueForm) : Run Tracked := do
  needBool (← evalValue inFlight v)

end Symex.Session
