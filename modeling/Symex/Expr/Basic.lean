import Std.Data.TreeSet.Basic
import Symex.Operator
import Symex.Table

/-!
Symbolic expressions. Every node carries the stamp it was given when it was built, so a tree records
which of its parts are one shared node: nodes with equal stamps are the same node, and equal trees
are the same expression object. `unstamped` forgets this and leaves the structure.
-/

namespace Symex

/-- A symbolic expression. -/
inductive Expr where
  /-- A free variable. -/
  | any (stamp : Nat) (name : String) (ty : Ty)
  /-- A literal, possibly known by a name. -/
  | lit (stamp : Nat) (value : Scalar) (name : Option String)
  | cast (stamp : Nat) (ty : Ty) (operand : Expr)
  | unary (stamp : Nat) (op : Operator) (operand : Expr)
  | ite (stamp : Nat) (cond yes no : Expr)
  /-- An operator over any number of operands of one type. -/
  | nary (stamp : Nat) (op : Operator) (operandTy : Ty) (operands : List Expr)

namespace Expr

instance : Inhabited Expr := ⟨.lit 0 default none⟩

def stamp : Expr → Nat
  | .any n _ _ | .lit n _ _ | .cast n _ _ | .unary n _ _ | .ite n _ _ _ | .nary n _ _ _ => n

/-- Type of the value of an expression. -/
def ty : Expr → Ty
  | .any _ _ ty => ty
  | .lit _ value _ => value.ty
  | .cast _ ty _ => ty
  | .unary _ _ _ => .bool
  | .ite _ _ yes _ => yes.ty
  | .nary _ op operandTy _ => op.resultTy operandTy

def literal? : Expr → Option Scalar
  | .lit _ value _ => some value
  | _ => none

/-! ### Free variables -/

mutual
/-- Occurrences of free variables from left to right. -/
def occurrences : Expr → List (String × Ty)
  | .any _ name ty => [(name, ty)]
  | .lit _ _ _ => []
  | .cast _ _ e | .unary _ _ e => e.occurrences
  | .ite _ c y n => c.occurrences ++ y.occurrences ++ n.occurrences
  | .nary _ _ _ es => occurrencesAll es
def occurrencesAll : List Expr → List (String × Ty)
  | [] => []
  | e :: es => e.occurrences ++ occurrencesAll es
end

/-- The free variables with their types; the last occurrence of a name decides. -/
def free (e : Expr) : Table String Ty := .ofList e.occurrences

/-! ### Sharing -/

/-- Enters a node in search of the one with stamp `target`. A node that was entered before is not
entered again. Operands are older than the node above them, so a node older than the one looked for
cannot stand above it. -/
def enter (target n : Nat) (seen : Std.TreeSet Nat) (below : Std.TreeSet Nat → Std.TreeSet Nat) :
    Std.TreeSet Nat :=
  if n < target || seen.contains n then seen else below (seen.insert n)

mutual
/-- Adds to the nodes seen those of an expression that are no older than a stamp. -/
def reach (target : Nat) : Expr → Std.TreeSet Nat → Std.TreeSet Nat
  | .any n _ _, seen | .lit n _ _, seen => enter target n seen id
  | .cast n _ e, seen | .unary n _ e, seen => enter target n seen fun seen => reach target e seen
  | .ite n c y z, seen =>
    enter target n seen fun seen => reach target z (reach target y (reach target c seen))
  | .nary n _ _ es, seen => enter target n seen fun seen => reachAll target es seen
def reachAll (target : Nat) : List Expr → Std.TreeSet Nat → Std.TreeSet Nat
  | [], seen => seen
  | e :: es, seen => reachAll target es (reach target e seen)
end

mutual
/-- The structure of an expression: all stamps are zero. -/
def unstamped : Expr → Expr
  | .any _ name ty => .any 0 name ty
  | .lit _ value name => .lit 0 value name
  | .cast _ ty e => .cast 0 ty e.unstamped
  | .unary _ op e => .unary 0 op e.unstamped
  | .ite _ c y n => .ite 0 c.unstamped y.unstamped n.unstamped
  | .nary _ op ty es => .nary 0 op ty (unstampedAll es)
def unstampedAll : List Expr → List Expr
  | [] => []
  | e :: es => e.unstamped :: unstampedAll es
end

/-! ### Equality -/

mutual
/-- Whether two expressions are the same, stamps included. -/
def beq : Expr → Expr → Bool
  | .any n a t, .any m b u => n == m && a == b && t == u
  | .lit n v a, .lit m w b => n == m && v == w && a == b
  | .cast n t a, .cast m u b => n == m && t == u && beq a b
  | .unary n o a, .unary m p b => n == m && o == p && beq a b
  | .ite n a a' a'', .ite m b b' b'' => n == m && beq a b && beq a' b' && beq a'' b''
  | .nary n o t as, .nary m p u bs => n == m && o == p && t == u && beqAll as bs
  | _, _ => false
termination_by structural a => a
def beqAll : List Expr → List Expr → Bool
  | [], [] => true
  | a :: as, b :: bs => beq a b && beqAll as bs
  | _, _ => false
termination_by structural a => a
end

mutual
theorem beq_iff (a b : Expr) : beq a b = true ↔ a = b := by
  cases a <;> cases b <;> simp [beq, beq_iff, beqAll_iff, and_assoc]
termination_by structural a
theorem beqAll_iff (as bs : List Expr) : beqAll as bs = true ↔ as = bs := by
  cases as <;> cases bs <;> simp [beqAll, beq_iff, beqAll_iff]
termination_by structural as
end

/-- Nodes that are shared are compared at once, however large they are. -/
instance : DecidableEq Expr := fun a b =>
  withPtrEqDecEq a b fun _ => decidable_of_iff _ (beq_iff a b)

/-! ### Lists of operands -/

theorem occurrencesAll_eq_flatMap (es : List Expr) : occurrencesAll es = es.flatMap occurrences := by
  induction es with
  | nil => rfl
  | cons e es ih => simp [occurrencesAll, ih]

/-! ### Comparison of structure -/

/-- Whether two expressions have the same structure. -/
def alike (a b : Expr) : Bool := a.unstamped = b.unstamped

/-- Positions of later expressions with the same structure as one at a position. -/
def alikeTo (a : Expr) (position : Nat) (later : List Expr) : List (Nat × Nat) :=
  (later.zipIdx (position + 1)).filterMap fun (b, j) =>
    if a.alike b then some (position, j) else none

/-- All pairs of positions with the same structure, the first position deciding the order. -/
def alikePairs (es : List Expr) (position : Nat := 0) : List (Nat × Nat) :=
  match es with
  | [] => []
  | e :: rest => alikeTo e position rest ++ alikePairs rest (position + 1)

end Expr

end Symex
