import Symex.Tracked

/-!
Native evaluation. An expression denotes a scalar once its free variables have values: sums wrap at
the width of `int`, comparisons are signed and chain over neighbours after promotion, and casts
convert. A piece of data with a companion denotes what the companion does, and its data otherwise.
-/

namespace Symex

/-- Values of the free variables. A free variable is a name at a type, and its value has that type. -/
structure Env where
  value : String → Ty → Scalar
  ty_value : ∀ name ty, (value name ty).ty = ty

/-- Every name stands for a word, at all types. -/
def Env.ofWords (word : String → BitVec 32) : Env where
  value name ty := (Scalar.int (word name)).convert ty
  ty_value _ ty := Scalar.ty_convert _ ty

namespace Scalar

@[simp] theorem promoted_int (v : BitVec 32) : (Scalar.int v).promoted = v := by
  simp [promoted, toInt]

@[simp] theorem isTrue_bool (b : Bool) : (Scalar.bool b).isTrue = b := by
  cases b <;> rfl

/-- Widening to `int` keeps the word that arithmetic sees. -/
@[simp] theorem promoted_convert_int (s : Scalar) : (s.convert .int).promoted = s.promoted :=
  promoted_int s.promoted

/-- Conversion to `bool` keeps the truth of a scalar. -/
@[simp] theorem isTrue_convert_bool (s : Scalar) : (s.convert .bool).isTrue = s.isTrue :=
  isTrue_bool s.isTrue

theorem convert_of_ty {s : Scalar} {ty : Ty} (h : s.ty = ty) : s.convert ty = s := by
  rw [← h, convert_ty]

end Scalar

/-- Whether a relation holds between all neighbours. -/
def chained {α : Type} (rel : α → α → Bool) : List α → Bool
  | a :: b :: rest => rel a b && chained rel (b :: rest)
  | _ => true

/-- Links between neighbours, as pairs of a list and its tail. -/
theorem chained_eq_all {α : Type} (rel : α → α → Bool) (l : List α) :
    chained rel l = (l.zip l.tail).all fun p => rel p.1 p.2 := by
  induction l with
  | nil => rfl
  | cons x l ih =>
    cases l with
    | nil => rfl
    | cons y l =>
      rw [chained, ih]
      rfl

theorem chained_map {α β : Type} (rel : β → β → Bool) (f : α → β) (l : List α) :
    chained rel (l.map f) = chained (fun x y => rel (f x) (f y)) l := by
  rw [chained_eq_all, chained_eq_all, ← List.map_tail, List.zip_map, List.all_map]
  rfl

namespace Operator

/-- The value of an operator over operands of a type. -/
def native (op : Operator) (ty : Ty) (vs : List Scalar) : Scalar :=
  match op with
  | .not => .bool (vs.all (!·.isTrue))
  | .add => Scalar.convert (.int ((vs.map Scalar.promoted).foldr (· + ·) 0#32)) ty
  | .and => .bool (vs.all Scalar.isTrue)
  | .or => .bool (vs.any Scalar.isTrue)
  | .eq => .bool (chained (· == ·) (vs.map Scalar.promoted))
  | .lt => .bool (chained BitVec.slt (vs.map Scalar.promoted))

@[simp] theorem ty_native (op : Operator) (ty : Ty) (vs : List Scalar) :
    (op.native ty vs).ty = op.resultTy ty := by
  cases op <;> simp [native, resultTy, isBoolean] <;> rfl

/-- The operand type at which an operator absorbs: sums are of type `int`, connectives of `bool`. -/
def AbsorbsAt (op : Operator) (ty : Ty) : Prop := op = .add ∧ ty = .int ∨ op = .and ∨ op = .or

theorem foldr_add_eq (l : List (BitVec 32)) (x : BitVec 32) :
    l.foldr (· + ·) x = l.foldr (· + ·) 0#32 + x := by
  induction l with
  | nil => simp
  | cons y l ih => rw [List.foldr_cons, List.foldr_cons, ih, BitVec.add_assoc]

/-- An application takes one more operand on the right as the result of the others would. -/
theorem native_concat {op : Operator} {ty : Ty} (h : op.AbsorbsAt ty) (vs : List Scalar) (v : Scalar) :
    op.native ty (vs ++ [v]) = op.native ty [op.native ty vs, v] := by
  rcases h with ⟨rfl, rfl⟩ | rfl | rfl <;> simp [native, foldr_add_eq _ v.promoted]

/-- An application takes one more operand on the left as the result of the others would. -/
theorem native_cons {op : Operator} {ty : Ty} (h : op.AbsorbsAt ty) (v : Scalar) (vs : List Scalar) :
    op.native ty (v :: vs) = op.native ty [v, op.native ty vs] := by
  rcases h with ⟨rfl, rfl⟩ | rfl | rfl <;> simp [native]

end Operator

namespace Expr

mutual
/-- The scalar an expression denotes. -/
def value (env : Env) : Expr → Scalar
  | .any _ name ty => env.value name ty
  | .lit _ v _ => v
  | .cast _ ty e => (value env e).convert ty
  | .unary _ _ e => .bool !(value env e).isTrue
  | .ite _ c y n => if (value env c).isTrue then value env y else value env n
  | .nary _ op ty es => op.native ty (valueAll env es)
def valueAll (env : Env) : List Expr → List Scalar
  | [] => []
  | e :: es => value env e :: valueAll env es
end

theorem valueAll_eq_map (env : Env) (es : List Expr) : valueAll env es = es.map (value env) := by
  induction es with
  | nil => rfl
  | cons e es ih => simp [valueAll, ih]

@[simp] theorem value_nary (env : Env) (n : Nat) (op : Operator) (ty : Ty) (es : List Expr) :
    value env (.nary n op ty es) = op.native ty (es.map (value env)) := by
  rw [value, valueAll_eq_map]

end Expr

namespace Dual

/-- The scalar that data with an optional companion denote. -/
def value (env : Env) (d : Dual) : Scalar :=
  match d.companion with
  | some e => e.value env
  | none => d.data

/-- What is denoted has the type of the data, whatever the free variables are. -/
def Typed (d : Dual) : Prop := ∀ env, (d.value env).ty = d.data.ty

theorem value_some {env : Env} {d : Dual} {e : Expr} (h : d.companion = some e) :
    d.value env = e.value env := by
  simp [value, h]

theorem value_none {env : Env} {d : Dual} (h : d.companion = none) : d.value env = d.data := by
  simp [value, h]

/-- Data that are known to be the same denote the same. -/
theorem value_eq_of_same {a b : Dual} (h : a.same b = true) (env : Env) :
    a.value env = b.value env := by
  unfold same at h
  unfold value
  split at h
  · next ha hb => simp_all
  · next ha hb => simp_all
  · simp at h

end Dual

end Symex
