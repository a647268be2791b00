import Symex.Proofs.Building
import Symex.Proofs.SequentialTerms
import Symex.Proofs.Stamps

/-!
Well-typed companions. Building a node checks nothing, so an expression is well-typed only if whoever
builds it sees to that: operators insert the casts that bring operands to a common type, and take a node
apart only if its operands have that type. What an application to two operands can be is said once
(`Joins`), and every operator of tracked values keeps companions well-typed at the types of their data.
-/

namespace Symex

/-! ### Well-typed expressions -/

namespace Operator

theorem takes_mono {op : Operator} {ty : Ty} {count count' : Nat} (h : op.takes ty count = true)
    (hle : count ≤ count') : op.takes ty count' = true := by
  cases op <;> cases ty <;> simp [takes] at h ⊢ <;> omega

/-- Operators that absorb are of the type of their operands. -/
theorem resultTy_eq_of_absorbs {op : Operator} {ty : Ty} {count : Nat} (h : op.takes ty count = true)
    (habs : op.absorbs = true) : op.resultTy ty = ty := by
  cases op <;> cases ty <;> simp [takes, absorbs, attributes] at h habs <;> rfl

end Operator

namespace Expr

/-- An expression of a type: casts change the type, negation and conditions are over `bool`, both arms of
a choice have its type, and a node has at least two operands, all of its operand type. -/
inductive HasTy : Expr → Ty → Prop
  | any (n : Nat) (name : String) (ty : Ty) : HasTy (.any n name ty) ty
  | lit (n : Nat) (value : Scalar) (name : Option String) : HasTy (.lit n value name) value.ty
  | cast {e : Expr} {u ty : Ty} (n : Nat) (he : HasTy e u) (hne : u ≠ ty) : HasTy (.cast n ty e) ty
  | not {e : Expr} (n : Nat) (he : HasTy e .bool) : HasTy (.unary n .not e) .bool
  | ite {c y z : Expr} {ty : Ty} (n : Nat) (hc : HasTy c .bool) (hy : HasTy y ty) (hz : HasTy z ty) :
    HasTy (.ite n c y z) ty
  | nary {op : Operator} {ty : Ty} {es : List Expr} (n : Nat) (htakes : op.takes ty 2 = true)
    (hlen : 2 ≤ es.length) (hes : ∀ e ∈ es, HasTy e ty) : HasTy (.nary n op ty es) (op.resultTy ty)

namespace HasTy

variable {e : Expr} {ty : Ty}

theorem ty_eq (h : e.HasTy ty) : e.ty = ty := by
  induction h with
  | any n name ty => rfl
  | lit n value name => rfl
  | cast n he hne ih => rfl
  | not n he ih => rfl
  | ite n hc hy hz ihc ihy ihz => exact ihy
  | nary n htakes hlen hes ih => rfl

theorem fitted (h : e.HasTy ty) : e.fitted = true := by
  induction h with
  | any n name ty => rfl
  | lit n value name => rfl
  | cast n he hne ih => exact ih
  | not n he ih => simp [Expr.fitted, he.ty_eq, ih]
  | ite n hc hy hz ihc ihy ihz => simp [Expr.fitted, hc.ty_eq, hy.ty_eq, hz.ty_eq, ihc, ihy, ihz]
  | nary n htakes hlen hes ih =>
    have hall := fittedAll_iff.2 fun e he => ⟨(hes e he).ty_eq, ih e he⟩
    rw [Expr.fitted, Operator.takes_mono htakes hlen, hall]
    rfl

theorem nary_inv {n : Nat} {op : Operator} {u : Ty} {es : List Expr} (h : HasTy (.nary n op u es) ty) :
    op.resultTy u = ty ∧ op.takes u 2 = true ∧ 2 ≤ es.length ∧ ∀ e ∈ es, e.HasTy u := by
  cases h with
  | nary n htakes hlen hes => exact ⟨rfl, htakes, hlen, hes⟩

end HasTy

end Expr

/-! ### Applications to two operands -/

/-- What an application to two operands can be: a node above both, or an operand that takes in the
other. -/
inductive Operator.Joins (op : Operator) (ty : Ty) (x y : Expr) : Expr → Prop
  | above (n : Nat) : Joins op ty x y (.nary n op ty [x, y])
  | takesLast {k : Nat} {u : Ty} {es : List Expr} (n : Nat) (habs : op.absorbs = true)
      (hx : x = .nary k op u es) : Joins op ty x y (.nary n op u (es ++ [y]))
  | takesFirst {k : Nat} {u : Ty} {es : List Expr} (n : Nat) (habs : op.absorbs = true)
      (hy : y = .nary k op u es) : Joins op ty x y (.nary n op u (x :: es))

/-- A companion that is taken apart is the operand itself, and no node is built for it. -/
theorem Dual.operand_of_draft {d : Dual} {op : Operator} {ty : Ty} {alone : Bool} {b : Draft}
    (hb : d.draft? op ty alone = some b) (n : Nat) :
    ∃ k, d.operand ty n = (.nary k op b.operandTy b.operands, n) := by
  obtain ⟨-, -, hty, k, he⟩ := draft?_eq_some hb
  refine ⟨k, ?_⟩
  rw [operand, Mint.bind_apply, if_pos hty, toExpr, he]
  rfl

namespace Operator

theorem applyDuals_joins (op : Operator) (ty : Ty) (l r : Dual) (own : Ownership) (n : Nat) :
    op.Joins ty (l.operand ty n).1 (r.operand ty (l.operand ty n).2).1 (op.applyDuals ty l r own n).1 := by
  unfold applyDuals
  cases hl : l.draft? op ty own.left with
  | some b =>
    obtain ⟨rfl, habs, -⟩ := Dual.draft?_eq_some hl
    obtain ⟨k, hx⟩ := Dual.operand_of_draft hl n
    rw [hx]
    exact .takesLast _ habs rfl
  | none =>
    cases hr : r.draft? op ty own.right with
    | some b =>
      obtain ⟨rfl, habs, -⟩ := Dual.draft?_eq_some hr
      obtain ⟨k, hy⟩ := Dual.operand_of_draft hr (l.operand ty n).2
      exact .takesFirst _ habs (congrArg Prod.fst hy)
    | none => exact .above _

variable {op : Operator} {ty : Ty} {x y e : Expr}

/-- A node that is taken apart is over operands of its own type. -/
theorem operands_hasTy {n : Nat} {u : Ty} {es : List Expr} (habs : op.absorbs = true)
    (h : Expr.HasTy (.nary n op u es) ty) : u = ty ∧ 2 ≤ es.length ∧ ∀ e ∈ es, e.HasTy ty := by
  obtain ⟨hty, htakes, hlen, hes⟩ := h.nary_inv
  obtain rfl : u = ty := (resultTy_eq_of_absorbs htakes habs).symm.trans hty
  exact ⟨rfl, hlen, hes⟩

theorem Joins.hasTy (h : op.Joins ty x y e) (htakes : op.takes ty 2 = true) (hx : x.HasTy ty)
    (hy : y.HasTy ty) : e.HasTy (op.resultTy ty) := by
  cases h with
  | above n => exact .nary n htakes (Nat.le_refl 2) (by simp [hx, hy])
  | takesLast n habs he =>
    subst he
    obtain ⟨rfl, hlen, hes⟩ := operands_hasTy habs hx
    refine .nary n htakes (by simp; omega) fun e he => ?_
    rcases List.mem_append.1 he with he | he
    · exact hes e he
    · rw [List.mem_singleton.1 he]
      exact hy
  | takesFirst n habs he =>
    subst he
    obtain ⟨rfl, hlen, hes⟩ := operands_hasTy habs hy
    exact .nary n htakes (by simp; omega) (List.forall_mem_cons.2 ⟨hx, hes⟩)

end Operator

/-! ### Values -/

namespace Dual

variable {d l r : Dual}

/-- The companion is well-typed at the type of the data. -/
def WellTyped (d : Dual) : Prop := ∀ e, d.companion = some e → e.HasTy d.data.ty

theorem wellTyped_of_none (h : d.companion = none) : d.WellTyped := by
  intro e he
  rw [h] at he
  cases he

theorem wellTyped_of_some {e : Expr} (hc : d.companion = some e) (he : e.HasTy d.data.ty) : d.WellTyped := by
  intro e' he'
  rw [hc] at he'
  cases he'
  exact he

theorem toExpr_hasTy (h : d.WellTyped) : d.toExpr.Makes (·.HasTy d.data.ty) := by
  unfold toExpr
  split
  · next e he => exact .pure (h e he)
  · exact fun n => .lit n d.data none

/-- An operand is cast just if it has another type. -/
theorem operand_hasTy (h : d.WellTyped) (ty : Ty) : (d.operand ty).Makes (·.HasTy ty) := by
  refine .bind (toExpr_hasTy h) fun e he => ?_
  split
  · next hty =>
    subst hty
    exact .pure he
  · next hty => exact fun n => .cast n he hty

theorem applyDuals_hasTy {op : Operator} {ty : Ty} (htakes : op.takes ty 2 = true) (hl : l.WellTyped)
    (hr : r.WellTyped) (own : Ownership) : (op.applyDuals ty l r own).Makes (·.HasTy (op.resultTy ty)) :=
  fun n => (op.applyDuals_joins ty l r own n).hasTy htakes (operand_hasTy hl ty n) (operand_hasTy hr ty _)

end Dual

namespace Tracked

variable {v w l r : Tracked}

theorem new_wellTyped (data : Scalar) : (new data).toDual.WellTyped := Dual.wellTyped_of_none rfl

theorem any_wellTyped (name : String) (ty : Ty) : (any name ty).Makes (·.toDual.WellTyped) := by
  intro n
  refine Dual.wellTyped_of_some rfl ?_
  rw [show ((any name ty n).1).data.ty = ty from Scalar.ty_zero ty]
  exact .any n name ty

theorem symbolize_wellTyped (v : Tracked) (name : String) :
    (v.symbolize name).Makes (·.toDual.WellTyped) := by
  unfold symbolize
  split
  · exact fun n => Dual.wellTyped_of_some rfl (.lit n v.data (some name))
  · exact fun n => Dual.wellTyped_of_some rfl (.any n name v.ty)

theorem cast_wellTyped (hv : v.toDual.WellTyped) (ty : Ty) :
    (v.cast ty).Makes fun w => w.data.ty = ty ∧ w.toDual.WellTyped := by
  unfold cast
  split
  · next hty => exact .pure ⟨hty, hv⟩
  · next hty =>
    cases hc : v.companion with
    | none => exact fun n => ⟨Scalar.ty_convert _ _, Dual.wellTyped_of_none rfl⟩
    | some e =>
      refine fun n => ⟨Scalar.ty_convert _ _, Dual.wellTyped_of_some rfl ?_⟩
      show Expr.HasTy (.cast n ty e) (v.data.convert ty).ty
      rw [Scalar.ty_convert]
      exact .cast n (hv e hc) hty

theorem not_wellTyped (hv : v.toDual.WellTyped) (hty : v.ty = .bool) :
    v.not.Makes (·.toDual.WellTyped) := by
  unfold not
  cases hc : v.companion with
  | none => exact fun n => Dual.wellTyped_of_none rfl
  | some e =>
    have he : e.HasTy .bool := hty ▸ hv e hc
    exact fun n => Dual.wellTyped_of_some rfl (.not n he)

/-- An assignment keeps the type and the concreteness of its destination. -/
theorem assign_wellTyped (v : Tracked) (hw : w.toDual.WellTyped) :
    (v.assign w).Makes fun u => u.data.ty = v.ty ∧ u.concrete = v.concrete ∧ u.toDual.WellTyped :=
  .bind (cast_wellTyped hw v.ty) fun _ hc => .pure ⟨hc.1, rfl, hc.2⟩

theorem combine_wellTyped {op : Operator} {ty : Ty} (htakes : op.takes ty 2 = true) {data : Scalar}
    (hdata : data.ty = op.resultTy ty) (hl : l.toDual.WellTyped) (hr : r.toDual.WellTyped)
    (own : Ownership) : (combine op ty data l r own).Makes (·.toDual.WellTyped) := by
  unfold combine
  split
  · refine .bind (P := fun c => Dual.WellTyped ⟨data, c⟩) (.map ?_) fun c hc => .pure hc
    refine (Dual.applyDuals_hasTy htakes hl hr own).mono fun e he => Dual.wellTyped_of_some rfl ?_
    rw [hdata]
    exact he
  · exact .pure (Dual.wellTyped_of_none rfl)

section
variable (hl : l.toDual.WellTyped) (hr : r.toDual.WellTyped) (own : Ownership)
include hl hr

theorem add_wellTyped : (l.add r own).Makes (·.toDual.WellTyped) := by
  unfold add
  rw [Ty.common_eq_int]
  exact combine_wellTyped rfl rfl hl hr own

theorem lt_wellTyped : (l.lt r own).Makes (·.toDual.WellTyped) := by
  unfold lt
  rw [Ty.common_eq_int]
  exact combine_wellTyped rfl rfl hl hr own

theorem equals_wellTyped : (l.equals r own).Makes (·.toDual.WellTyped) := by
  unfold equals
  rw [Ty.common_eq_int]
  exact combine_wellTyped rfl rfl hl hr own

theorem and_wellTyped : (l.and r own).Makes (·.toDual.WellTyped) := combine_wellTyped rfl rfl hl hr own

theorem or_wellTyped : (l.or r own).Makes (·.toDual.WellTyped) := combine_wellTyped rfl rfl hl hr own

end

end Tracked

end Symex
