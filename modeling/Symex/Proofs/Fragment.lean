import Symex.Proofs.SequentialTerms

/-!
What the encoding over booleans and integers accepts. A node can be at fault by itself (`fault?`): a leaf or
a cast by its types, an application by the number of its operands. An expression has a term if none of its
subexpressions is at fault; else the first that is at fault in the order in which they are checked decides
the error. A cast is checked before its operand, an application after all of its operands.
-/

namespace Symex

open Smt (Term)

/-! ### Faults of single nodes -/

/-- A type without a sort is at fault. -/
def Ty.fault? (ty : Ty) : Option Error :=
  if ty = .char ∨ ty = .short then some (.unsupportedType ty) else none

/-- An operator is at fault over no operands, without an identity over one, and as a negation over
several. -/
def Operator.fault? (op : Operator) : Nat → Option Error
  | 0 => some (.emptyNary op)
  | 1 => if op = .not ∨ op = .eq ∨ op = .lt then some (.partialNary op) else none
  | _ => if op = .not then some (.partialNary op) else none

namespace Expr

/-- What an expression is at fault for by its root. Of a cast, the type of the operand comes first. -/
def fault? : Expr → Option Error
  | .any _ _ ty => ty.fault?
  | .lit _ value _ => value.ty.fault?
  | .cast _ ty e => e.ty.fault?.or ty.fault?
  | .unary _ _ _ | .ite _ _ _ _ => none
  | .nary _ op _ es => op.fault? es.length

/-! ### Subexpressions -/

def operands : Expr → List Expr
  | .any _ _ _ | .lit _ _ _ => []
  | .cast _ _ e | .unary _ _ e => [e]
  | .ite _ c y n => [c, y, n]
  | .nary _ _ _ es => es

/-- An expression is a subexpression of another, at some depth. -/
inductive Within (f : Expr) : Expr → Prop
  | self : Within f f
  | operand {e g : Expr} : g ∈ e.operands → Within f g → Within f e

theorem within_iff {e f : Expr} : f.Within e ↔ f = e ∨ ∃ g ∈ e.operands, f.Within g := by
  constructor
  · intro h
    cases h with
    | self => exact .inl rfl
    | operand hg hf => exact .inr ⟨_, hg, hf⟩
  · rintro (rfl | ⟨g, hg, hf⟩)
    · exact .self
    · exact .operand hg hf

mutual
/-- The subexpressions in the order in which they are checked. -/
def checked : Expr → List Expr
  | .any n name ty => [.any n name ty]
  | .lit n value name => [.lit n value name]
  | .cast n ty e => .cast n ty e :: checked e
  | .unary n op e => .unary n op e :: checked e
  | .ite n c y z => .ite n c y z :: (checked c ++ (checked y ++ checked z))
  | .nary n op ty es => checkedAll es ++ [.nary n op ty es]
def checkedAll : List Expr → List Expr
  | [] => []
  | e :: es => checked e ++ checkedAll es
end

mutual
theorem mem_checked (e : Expr) {f : Expr} : f ∈ e.checked ↔ f.Within e := by
  rw [within_iff]
  match e with
  | .any _ _ _ => simp [checked, operands]
  | .lit _ _ _ => simp [checked, operands]
  | .cast _ _ e => simp [checked, operands, mem_checked e]
  | .unary _ _ e => simp [checked, operands, mem_checked e]
  | .ite _ c y n => simp [checked, operands, mem_checked c, mem_checked y, mem_checked n]
  | .nary _ _ _ es =>
    rw [checked, List.mem_append, mem_checkedAll es, List.mem_singleton]
    exact or_comm
theorem mem_checkedAll (es : List Expr) {f : Expr} : f ∈ checkedAll es ↔ ∃ e ∈ es, f.Within e := by
  match es with
  | [] => simp [checkedAll]
  | e :: es => simp [checkedAll, mem_checked e, mem_checkedAll es]
end

end Expr

/-! ### The first fault -/

/-- Of two computations in a row, the first that fails decides. -/
theorem failure?_bind {ε α β : Type} {x : Except ε α} {f : α → Except ε β} {o o' : Option ε}
    (hx : failure? x = o) (hf : ∀ a, x = .ok a → failure? (f a) = o') : failure? (x >>= f) = o.or o' := by
  subst hx
  cases x with
  | error e => rfl
  | ok a => exact hf a rfl

/-- What follows and cannot fail makes no difference. -/
theorem failure?_followed {ε α β : Type} {x : Except ε α} (f : α → β) :
    failure? (x >>= fun a => pure (f a)) = failure? x := by
  cases x <;> rfl

theorem failure?_termSort (ty : Ty) : failure? ty.termSort = ty.fault? := by
  cases ty <;> rfl

theorem failure?_scalarTerm (s : Scalar) : failure? s.term = s.ty.fault? := by
  cases s <;> rfl

theorem failure?_applyTerms (op : Operator) (ts : List Term) :
    failure? (op.applyTerms ts) = op.fault? ts.length := by
  match ts with
  | [] => rfl
  | [t] => cases op <;> rfl
  | t :: u :: ts => cases op <;> rfl

namespace Expr

theorem length_termAll {es : List Expr} {ts : List Term} (h : termAll es = .ok ts) :
    ts.length = es.length := by
  induction es generalizing ts with
  | nil =>
    cases h
    rfl
  | cons e es ih =>
    obtain ⟨t, -, h⟩ := bind_eq_ok.1 h
    obtain ⟨us, hus, h⟩ := bind_eq_ok.1 h
    cases h
    rw [List.length_cons, ih hus, List.length_cons]

theorem findSome?_fault_cons (e : Expr) (es : List Expr) :
    (e :: es).findSome? fault? = e.fault?.or (es.findSome? fault?) := by
  rw [List.findSome?_cons]
  cases e.fault? <;> rfl

mutual
/-- **The first fault decides**, in the order of `checked`. -/
theorem failure?_term (e : Expr) : failure? e.term = e.checked.findSome? fault? := by
  match e with
  | .any _ name ty =>
    rw [checked, findSome?_fault_cons, List.findSome?_nil, Option.or_none]
    exact (failure?_followed _).trans (failure?_termSort ty)
  | .lit _ value _ =>
    rw [checked, findSome?_fault_cons, List.findSome?_nil, Option.or_none]
    exact failure?_scalarTerm value
  | .cast _ ty e =>
    rw [checked, findSome?_fault_cons, fault?, Option.or_assoc]
    exact failure?_bind (failure?_termSort e.ty) fun _ _ => failure?_bind (failure?_termSort ty) fun _ _ =>
      (failure?_followed _).trans (failure?_term e)
  | .unary _ op e =>
    rw [checked, findSome?_fault_cons, fault?, Option.none_or]
    exact (failure?_followed _).trans (failure?_term e)
  | .ite _ c y n =>
    rw [checked, findSome?_fault_cons, fault?, Option.none_or, List.findSome?_append, List.findSome?_append]
    exact failure?_bind (failure?_term c) fun _ _ => failure?_bind (failure?_term y) fun _ _ =>
      (failure?_followed _).trans (failure?_term n)
  | .nary _ op ty es =>
    rw [checked, List.findSome?_append]
    refine failure?_bind (failure?_termAll es) fun ts hts => ?_
    rw [failure?_applyTerms, length_termAll hts, findSome?_fault_cons, fault?, List.findSome?_nil,
      Option.or_none]
theorem failure?_termAll (es : List Expr) : failure? (termAll es) = (checkedAll es).findSome? fault? := by
  match es with
  | [] => rfl
  | e :: es =>
    rw [checkedAll, List.findSome?_append]
    exact failure?_bind (failure?_term e) fun _ _ => (failure?_followed _).trans (failure?_termAll es)
end

/-- **The encoding accepts its fragment and nothing else.** Whatever has been noted before, an expression has
a term if and only if no subexpression is at fault. It is refused with the fault of the first subexpression
that has one, in the order in which all of them are checked. -/
theorem encode_accepts_fragment (e : Expr) (free : FreeSorts) :
    ((∃ t, (e.encode.run.run free).1 = .ok t) ↔ ∀ f : Expr, f.Within e → f.fault? = none) ∧
    (∀ err, (e.encode.run.run free).1 = .error err ↔ ∃ before f after, e.checked = before ++ f :: after ∧
      (∀ g ∈ before, g.fault? = none) ∧ f.fault? = some err) ∧
    ∀ f, f ∈ e.checked ↔ f.Within e := by
  have hfail := failure?_term e
  rw [encode_returns e free]
  refine ⟨?_, fun err => ?_, fun f => mem_checked e⟩
  · simp only [← mem_checked e]
    rw [← List.findSome?_eq_none_iff, ← hfail]
    cases e.term with
    | ok t => simp [failure?]
    | error err => simp [failure?]
  · have hfirst : (∃ before f after, e.checked = before ++ f :: after ∧ (∀ g ∈ before, g.fault? = none) ∧
        f.fault? = some err) ↔ e.checked.findSome? fault? = some err := by
      rw [List.findSome?_eq_some_iff]
      simp only [and_comm]
    rw [hfirst, ← hfail]
    cases e.term with
    | ok t => simp [failure?]
    | error err' => simp [failure?]

/-- Of three faults, that of the operand's type is found first: the cast is checked before the application
above it. -/
example : ((Expr.nary 2 .lt .int [.cast 1 .short (.any 0 "C" .char)]).encode.run.run []).1 =
    .error (.unsupportedType .char) := rfl

end Expr

end Symex
