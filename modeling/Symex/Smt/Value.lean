import Symex.Smt.Sort
import Symex.Smt.Word
import Symex.Table

/-!
Values that a model gives to terms. An array is a default element with a table of the elements that
were stored; two arrays are equal when both parts are.
-/

namespace Symex.Smt

/-- A value of a term. -/
inductive Value where
  | bool (b : Bool)
  | int (i : Int)
  | bitVec (value : Word) (width : Nat)
  | array (default : Value) (entries : List (Word × Value))

namespace Value

instance : Inhabited Value := ⟨.bool false⟩

/-- The bit-vector of a width that is congruent to an integer. -/
def ofInt (i : Int) (width : Nat) : Value := .bitVec (Word.lowBits (.ofInt 64 i) width) width

def sort : Value → TermSort
  | .bool _ => .bool
  | .int _ => .int
  | .bitVec _ w => .bitVec w
  | .array d _ => .arrayOf d.sort

/-- The signed integer that a number denotes. -/
def signed? : Value → Option Int
  | .int i => some i
  | .bitVec v w => some (v.signed w)
  | .bool _ | .array _ _ => none

/-! ### Equality -/

mutual
def decEq : (a b : Value) → Decidable (a = b)
  | .bool a, .bool b => decidable_of_iff (a = b) (by simp)
  | .int i, .int j => decidable_of_iff (i = j) (by simp)
  | .bitVec v w, .bitVec v' w' => decidable_of_iff (v = v' ∧ w = w') (by simp)
  | .array d es, .array d' es' =>
    have := decEq d d'
    have := decEqEntries es es'
    decidable_of_iff (d = d' ∧ es = es') (by simp)
  | .bool _, .int _ | .bool _, .bitVec _ _ | .bool _, .array _ _
  | .int _, .bool _ | .int _, .bitVec _ _ | .int _, .array _ _
  | .bitVec _ _, .bool _ | .bitVec _ _, .int _ | .bitVec _ _, .array _ _
  | .array _ _, .bool _ | .array _ _, .int _ | .array _ _, .bitVec _ _ => isFalse (by simp)
def decEqEntries : (a b : List (Word × Value)) → Decidable (a = b)
  | [], [] => isTrue rfl
  | (k, v) :: es, (k', v') :: es' =>
    have := decEq v v'
    have := decEqEntries es es'
    decidable_of_iff ((k = k' ∧ v = v') ∧ es = es') (by simp)
  | [], _ :: _ | _ :: _, [] => isFalse (by simp)
end

instance : DecidableEq Value := decEq

/-! ### Order -/

/-- Position of the constructor. -/
def rank : Value → Nat
  | .bool _ => 0
  | .int _ => 1
  | .bitVec _ _ => 2
  | .array _ _ => 3

mutual
/-- Constructors first, then their fields from left to right. -/
def cmp : Value → Value → Ordering
  | .bool a, .bool b => compare a b
  | .int i, .int j => compare i j
  | .bitVec v w, .bitVec v' w' => (compare v v').then (compare w w')
  | .array d es, .array d' es' => (cmp d d').then (cmpEntries es es')
  | a, b => compare a.rank b.rank
termination_by structural a => a
/-- Entries are compared as lists of pairs. -/
def cmpEntries : List (Word × Value) → List (Word × Value) → Ordering
  | [], [] => .eq
  | [], _ :: _ => .lt
  | _ :: _, [] => .gt
  | (k, v) :: es, (k', v') :: es' =>
    (compare k k').then ((cmp v v').then (cmpEntries es es'))
termination_by structural a => a
end

instance : Ord Value := ⟨cmp⟩

/-! ### Description in messages -/

mutual
/-- The form in which a message shows a value. -/
def describe : Value → String
  | .bool b => "Bool(" ++ (if b then "true" else "false") ++ ")"
  | .int i => "Int(" ++ toString i ++ ")"
  | .bitVec v w => "BitVec \x7b value: " ++ toString v.toNat ++ ", width: " ++ toString w ++ " \x7d"
  | .array d es =>
    "Array \x7b default: " ++ d.describe ++ ", entries: \x7b" ++ describeEntries es ++ "\x7d \x7d"
/-- Entries with their keys, separated by commas. -/
def describeEntries : List (Word × Value) → String
  | [] => ""
  | [(k, v)] => toString k.toNat ++ ": " ++ v.describe
  | (k, v) :: es => toString k.toNat ++ ": " ++ v.describe ++ ", " ++ describeEntries es
end

/-- The form in which a message shows arguments. -/
def describeAll (vs : List Value) : String :=
  "[" ++ ", ".intercalate (vs.map describe) ++ "]"

end Value

end Symex.Smt
