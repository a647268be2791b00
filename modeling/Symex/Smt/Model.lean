import Symex.Smt.Term.Equality

/-!
Models: values of constants and finite tables for functions, and the value of a term under them.
Operands are evaluated from left to right and each is checked before the next; an implication with a
false premise and the arm that an `ite` does not take are not evaluated.
-/

namespace Symex.Smt

/-- A function as a finite table, with a value elsewhere if there is a default. -/
structure FuncTable where
  entries : Table (List Value) Value := []
  default : Option Value := none
deriving DecidableEq

namespace FuncTable

def ofDefault (v : Value) : FuncTable := { default := some v }

def insert (f : FuncTable) (args : List Value) (v : Value) : FuncTable :=
  { f with entries := f.entries.insert args v }

def valueAt? (f : FuncTable) (args : List Value) : Option Value :=
  (f.entries.find? args).or f.default

end FuncTable

/-- Values of constants and functions. -/
structure Model where
  consts : Table String Value := []
  funcs : Table String FuncTable := []
deriving DecidableEq

namespace Value

def asBool : Value → Except Error Bool
  | .bool b => .ok b
  | v => .error (.sortMismatch .bool v.sort)

def asInt : Value → Except Error Int
  | .int i => .ok i
  | v => .error (.sortMismatch .int v.sort)

def asBitVec : Value → Except Error (Word × Nat)
  | .bitVec v w => .ok (v, w)
  | v => .error (.sortMismatch (.bitVec 32) v.sort)

def asArray : Value → Except Error (Value × Table Word Value)
  | .array d es => .ok (d, es)
  | v => .error (.sortMismatch (.arrayOf (.bitVec 32)) v.sort)

end Value

/-- Addition within the integers of 64 bits; a sum outside stays at the end it would leave. -/
def clampedAdd (a b : Int) : Int := max (-9223372036854775808) (min 9223372036854775807 (a + b))

/-- Whether no two values of a list are equal. -/
def pairwiseDistinct : List Value → Bool
  | [] => true
  | v :: vs => vs.all (· ≠ v) && pairwiseDistinct vs

namespace Model

def set (m : Model) (name : String) (v : Value) : Model :=
  { m with consts := m.consts.insert name v }

def setFunc (m : Model) (name : String) (f : FuncTable) : Model :=
  { m with funcs := m.funcs.insert name f }

def get? (m : Model) (name : String) : Option Value := m.consts.find? name

/-- The value of a function at arguments. -/
def applyFunc (m : Model) (func : String) (args : List Value) : Except Error Value :=
  match m.funcs.find? func with
  | none => .error (.noInterpretation func)
  | some f =>
    match f.valueAt? args with
    | none => .error (.undefinedAt func args)
    | some v => .ok v

mutual
/-- The value of a term. -/
def eval (m : Model) : Term → Except Error Value
  | .bool b => .ok (.bool b)
  | .int i => .ok (.int i)
  | .bitVec v w => .ok (.bitVec v w)
  | .const name _ =>
    match m.get? name with
    | none => .error (.noValue name)
    | some v => .ok v
  | .apply func args _ => do m.applyFunc func (← evalAll m args)
  | .not t => do return .bool !(← (← eval m t).asBool)
  | .and ts => do return .bool ((← evalBools m ts).all id)
  | .or ts => do return .bool ((← evalBools m ts).any id)
  | .implies a b => do
    if ← (← eval m a).asBool then return .bool (← (← eval m b).asBool) else return .bool true
  | .eq a b => do
    let x ← eval m a
    let y ← eval m b
    return .bool (x = y)
  | .distinct ts => do return .bool (pairwiseDistinct (← evalAll m ts))
  | .ite c t e => do if ← (← eval m c).asBool then eval m t else eval m e
  | .lt a b => do
    let x ← (← eval m a).asInt
    let y ← (← eval m b).asInt
    return .bool (x < y)
  | .gt a b => do
    let x ← (← eval m a).asInt
    let y ← (← eval m b).asInt
    return .bool (x > y)
  | .add ts => do return .int ((← evalInts m ts).foldl clampedAdd 0)
  | .bvAdd a b => do
    let (x, w) ← (← eval m a).asBitVec
    let (y, _) ← (← eval m b).asBitVec
    return .bitVec ((x + y).lowBits w) w
  | .bvNot t => do
    let (x, w) ← (← eval m t).asBitVec
    return .bitVec (Word.lowBits (~~~x) w) w
  | .bvSlt a b => do
    let (x, w) ← (← eval m a).asBitVec
    let (y, _) ← (← eval m b).asBitVec
    return .bool (x.signed w < y.signed w)
  | .signExtend bits t => do
    let (x, w) ← (← eval m t).asBitVec
    return .ofInt (x.signed w) (w + bits)
  | .select a i => do
    let (d, es) ← (← eval m a).asArray
    let (k, _) ← (← eval m i).asBitVec
    return (es.find? k).getD d
  | .store a i v => do
    let (d, es) ← (← eval m a).asArray
    let (k, _) ← (← eval m i).asBitVec
    return .array d (es.insert k (← eval m v))
  | .constArray _ v => do return .array (← eval m v) []
/-- The values of terms. -/
def evalAll (m : Model) : List Term → Except Error (List Value)
  | [] => .ok []
  | t :: ts => do
    let v ← eval m t
    return v :: (← evalAll m ts)
/-- The values of boolean terms. -/
def evalBools (m : Model) : List Term → Except Error (List Bool)
  | [] => .ok []
  | t :: ts => do
    let b ← (← eval m t).asBool
    return b :: (← evalBools m ts)
/-- The values of integer terms. -/
def evalInts (m : Model) : List Term → Except Error (List Int)
  | [] => .ok []
  | t :: ts => do
    let i ← (← eval m t).asInt
    return i :: (← evalInts m ts)
end

/-- Whether a boolean term is true. -/
def satisfies (m : Model) (t : Term) : Except Error Bool := do (← m.eval t).asBool

theorem evalAll_eq_mapM (m : Model) (ts : List Term) : m.evalAll ts = ts.mapM m.eval := by
  induction ts with
  | nil => rfl
  | cons t ts ih => rw [evalAll, List.mapM_cons, ih]

theorem evalBools_eq_mapM (m : Model) (ts : List Term) : m.evalBools ts = ts.mapM m.satisfies := by
  induction ts with
  | nil => rfl
  | cons t ts ih => rw [evalBools, List.mapM_cons, ih, satisfies, bind_assoc]

end Model

end Symex.Smt
