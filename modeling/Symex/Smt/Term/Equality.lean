import Symex.Smt.Term

/-!
Terms can be told apart: equality, sorts of constants included, is decidable.
-/

namespace Symex.Smt.Term

mutual
/-- Whether two terms are the same. -/
def beq : Term → Term → Bool
  | .bool a, .bool b => a == b
  | .int a, .int b => a == b
  | .bitVec a w, .bitVec b v => a == b && w == v
  | .const a s, .const b r => a == b && s == r
  | .apply f as s, .apply g bs r => f == g && beqAll as bs && s == r
  | .not a, .not b => beq a b
  | .and as, .and bs => beqAll as bs
  | .or as, .or bs => beqAll as bs
  | .implies a a', .implies b b' => beq a b && beq a' b'
  | .eq a a', .eq b b' => beq a b && beq a' b'
  | .distinct as, .distinct bs => beqAll as bs
  | .ite a a' a'', .ite b b' b'' => beq a b && beq a' b' && beq a'' b''
  | .lt a a', .lt b b' => beq a b && beq a' b'
  | .gt a a', .gt b b' => beq a b && beq a' b'
  | .add as, .add bs => beqAll as bs
  | .bvAdd a a', .bvAdd b b' => beq a b && beq a' b'
  | .bvNot a, .bvNot b => beq a b
  | .bvSlt a a', .bvSlt b b' => beq a b && beq a' b'
  | .signExtend n a, .signExtend m b => n == m && beq a b
  | .select a a', .select b b' => beq a b && beq a' b'
  | .store a a' a'', .store b b' b'' => beq a b && beq a' b' && beq a'' b''
  | .constArray s a, .constArray r b => s == r && beq a b
  | _, _ => false
termination_by structural a => a
def beqAll : List Term → List Term → Bool
  | [], [] => true
  | a :: as, b :: bs => beq a b && beqAll as bs
  | _, _ => false
termination_by structural a => a
end

mutual
theorem beq_iff (a b : Term) : beq a b = true ↔ a = b := by
  cases a <;> cases b <;> simp [beq, beq_iff, beqAll_iff, and_assoc]
termination_by structural a
theorem beqAll_iff (as bs : List Term) : beqAll as bs = true ↔ as = bs := by
  cases as <;> cases bs <;> simp [beqAll, beq_iff, beqAll_iff]
termination_by structural as
end

instance : DecidableEq Term := fun a b => decidable_of_iff _ (beq_iff a b)

end Symex.Smt.Term
