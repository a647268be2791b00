import Symex.Smt.Text

/-!
Sorts of terms: booleans, integers, bit-vectors of a width, and arrays.
-/

namespace Symex.Smt

/-- The sort of a term. -/
inductive TermSort where
  | bool
  | int
  | bitVec (width : Nat)
  | array (index element : TermSort)
deriving DecidableEq, Repr, Inhabited

namespace TermSort

/-- Width of an array index. -/
def indexWidth : Nat := 32

/-- Arrays are indexed by words of the index width. -/
def arrayOf (element : TermSort) : TermSort := .array (.bitVec indexWidth) element

def sexpr : TermSort → SExpr
  | .bool => .atom "Bool"
  | .int => .atom "Int"
  | .bitVec w => .list [.atom "_", .atom "BitVec", .atom (toString w)]
  | .array i e => .list [.atom "Array", i.sexpr, e.sexpr]

def text (s : TermSort) : String := s.sexpr.text

/-- Position of the constructor. -/
def rank : TermSort → Nat
  | .bool => 0
  | .int => 1
  | .bitVec _ => 2
  | .array _ _ => 3

def cmp : TermSort → TermSort → Ordering
  | .bitVec w, .bitVec v => compare w v
  | .array i e, .array j f => (cmp i j).then (cmp e f)
  | a, b => compare a.rank b.rank

instance : Ord TermSort := ⟨cmp⟩

end TermSort

end Symex.Smt
