import Symex.Error

/-!
Terms over booleans, integers, bit-vectors and arrays, their sorts and their SMT-LIB form. A
conjunction, disjunction or sum of nothing is written as the constant it equals.
-/

namespace Symex.Smt

/-- A term. -/
inductive Term where
  | bool (b : Bool)
  | int (i : Int)
  | bitVec (value : Word) (width : Nat)
  | const (name : String) (sort : TermSort)
  | apply (func : String) (args : List Term) (sort : TermSort)
  | not (t : Term)
  | and (ts : List Term)
  | or (ts : List Term)
  | implies (a b : Term)
  | eq (a b : Term)
  | distinct (ts : List Term)
  | ite (c t e : Term)
  | lt (a b : Term)
  | gt (a b : Term)
  | add (ts : List Term)
  | bvAdd (a b : Term)
  | bvNot (t : Term)
  | bvSlt (a b : Term)
  | signExtend (bits : Nat) (t : Term)
  | select (array index : Term)
  | store (array index value : Term)
  | constArray (sort : TermSort) (value : Term)

namespace Term

instance : Inhabited Term := ⟨.bool true⟩

/-- The bit-vector literal of a width that is congruent to an integer. -/
def ofInt (i : Int) (width : Nat) : Term := .bitVec (Word.lowBits (.ofInt 64 i) width) width

/-- The conjunction of terms; one term alone stands for itself. -/
def conj : List Term → Term
  | [t] => t
  | ts => .and ts

/-- The disjunction of terms; one term alone stands for itself. -/
def disj : List Term → Term
  | [t] => t
  | ts => .or ts

/-- That a relation holds between all neighbours. -/
def chain (link : Term → Term → Term) (ts : List Term) : Term :=
  conj (ts.zipWith link ts.tail)

/-! ### Sorts -/

/-- The sort of a term, read off the operands that decide it. -/
def sort : Term → Except Error TermSort
  | .bool _ | .not _ | .and _ | .or _ | .implies _ _ | .eq _ _ | .distinct _ | .lt _ _ | .gt _ _
  | .bvSlt _ _ => .ok .bool
  | .int _ | .add _ => .ok .int
  | .bitVec _ w => .ok (.bitVec w)
  | .const _ s | .apply _ _ s | .constArray s _ => .ok s
  | .ite _ t _ => t.sort
  | .bvAdd a _ => a.sort
  | .bvNot t => t.sort
  | .signExtend bits t => do
    match ← t.sort with
    | .bitVec w => .ok (.bitVec (w + bits))
    | found => .error (.sortMismatch (.bitVec 0) found)
  | .select a _ => do
    match ← a.sort with
    | .array _ e => .ok e
    | found => .error (.sortMismatch (.arrayOf (.bitVec 32)) found)
  | .store a _ _ => a.sort

/-! ### Text -/

mutual
def sexpr : Term → SExpr
  | .bool b => .atom (if b then "true" else "false")
  | .int i =>
    if i < 0 then .list [.atom "-", .atom (toString i.natAbs)] else .atom (toString i.natAbs)
  | .bitVec v w => .list [.atom "_", .atom ("bv" ++ toString v.toNat), .atom (toString w)]
  | .const name _ => .atom (symbol name)
  | .apply func args _ => .list (.atom (symbol func) :: sexprs args)
  | .not t => .list [.atom "not", t.sexpr]
  | .and ts => if ts.isEmpty then .atom "true" else .list (.atom "and" :: sexprs ts)
  | .or ts => if ts.isEmpty then .atom "false" else .list (.atom "or" :: sexprs ts)
  | .implies a b => .list [.atom "=>", a.sexpr, b.sexpr]
  | .eq a b => .list [.atom "=", a.sexpr, b.sexpr]
  | .distinct ts => if ts.length < 2 then .atom "true" else .list (.atom "distinct" :: sexprs ts)
  | .ite c t e => .list [.atom "ite", c.sexpr, t.sexpr, e.sexpr]
  | .lt a b => .list [.atom "<", a.sexpr, b.sexpr]
  | .gt a b => .list [.atom ">", a.sexpr, b.sexpr]
  | .add ts => if ts.isEmpty then .atom "0" else .list (.atom "+" :: sexprs ts)
  | .bvAdd a b => .list [.atom "bvadd", a.sexpr, b.sexpr]
  | .bvNot t => .list [.atom "bvnot", t.sexpr]
  | .bvSlt a b => .list [.atom "bvslt", a.sexpr, b.sexpr]
  | .signExtend bits t =>
    .list [.list [.atom "_", .atom "sign_extend", .atom (toString bits)], t.sexpr]
  | .select a i => .list [.atom "select", a.sexpr, i.sexpr]
  | .store a i v => .list [.atom "store", a.sexpr, i.sexpr, v.sexpr]
  | .constArray s v => .list [.list [.atom "as", .atom "const", s.sexpr], v.sexpr]
def sexprs : List Term → List SExpr
  | [] => []
  | t :: ts => t.sexpr :: sexprs ts
end

/-- The SMT-LIB form. -/
def text (t : Term) : String := t.sexpr.text

theorem sexprs_eq_map (ts : List Term) : sexprs ts = ts.map sexpr := by
  induction ts with
  | nil => rfl
  | cons t ts ih => simp [sexprs, ih]

end Term

end Symex.Smt
