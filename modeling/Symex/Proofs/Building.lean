import Symex.Proofs.Native

/-!
What computations that build nodes give, whatever stamps they hand out: `Makes` for those that always
succeed, `Yields` for those that could fail and do not. With them, what the operators of tracked
values denote: each combines what its operands denote, whether or not it takes a node apart.
-/

namespace Symex

/-! ### Results of building -/

/-- From every stamp on, the result satisfies a predicate. -/
def Mint.Makes {α : Type} (x : Mint α) (Q : α → Prop) : Prop := ∀ n, Q (x n).1

/-- From every stamp on, there is a result and it satisfies a predicate. -/
def Build.Yields {α : Type} (x : Build α) (Q : α → Prop) : Prop :=
  ∀ n, ∃ a n', x n = .ok (a, n') ∧ Q a

section
variable {α β : Type}

namespace Mint.Makes

theorem pure {a : α} {Q : α → Prop} (h : Q a) : Makes (Pure.pure a) Q := fun _ => h

theorem bind {x : Mint α} {f : α → Mint β} {P : α → Prop} {Q : β → Prop} (hx : x.Makes P)
    (hf : ∀ a, P a → (f a).Makes Q) : Makes (x >>= f) Q := fun n => hf _ (hx n) _

theorem map {x : Mint α} {f : α → β} {Q : β → Prop} (hx : x.Makes fun a => Q (f a)) :
    Makes (f <$> x) Q := fun n => hx n

theorem mono {x : Mint α} {P Q : α → Prop} (hx : x.Makes P) (h : ∀ a, P a → Q a) : x.Makes Q :=
  fun n => h _ (hx n)

end Mint.Makes

namespace Build.Yields

theorem pure {a : α} {Q : α → Prop} (h : Q a) : Yields (Pure.pure a) Q := fun n => ⟨a, n, rfl, h⟩

theorem bind {x : Build α} {f : α → Build β} {P : α → Prop} {Q : β → Prop} (hx : x.Yields P)
    (hf : ∀ a, P a → (f a).Yields Q) : Yields (x >>= f) Q := by
  intro n
  obtain ⟨a, n', hn, ha⟩ := hx n
  obtain ⟨b, n'', hn', hb⟩ := hf a ha n'
  refine ⟨b, n'', ?_, hb⟩
  show (x n >>= fun p => f p.1 p.2) = _
  rw [hn]
  exact hn'

theorem mono {x : Build α} {P Q : α → Prop} (hx : x.Yields P) (h : ∀ a, P a → Q a) : x.Yields Q := by
  intro n
  obtain ⟨a, n', hn, ha⟩ := hx n
  exact ⟨a, n', hn, h a ha⟩

/-- Building nodes does not fail. -/
theorem mint {x : Mint α} {Q : α → Prop} (h : x.Makes Q) : Yields (liftM x : Build α) Q :=
  fun n => ⟨_, _, rfl, h n⟩

/-- A result that is there is taken as it is. -/
theorem ofExcept {x : Except Error α} {a : α} {Q : α → Prop} (hx : x = .ok a) (h : Q a) :
    Yields (liftM x : Build α) Q := fun n => ⟨a, n, by rw [hx]; rfl, h⟩

end Build.Yields

end

/-! ### Operands -/

namespace Dual

theorem toExpr_makes (d : Dual) : d.toExpr.Makes fun e => ∀ env, e.value env = d.value env := by
  unfold toExpr
  split
  · next e h => exact .pure fun env => (value_some h).symm
  · next h => exact fun n env => (value_none h).symm

/-- A companion changed as the data are. -/
theorem mapM_makes {d : Dual} {f : Expr → Mint Expr} {g : Scalar → Scalar}
    (hf : ∀ e, (f e).Makes fun e' => ∀ env, e'.value env = g (e.value env)) :
    (d.companion.mapM f).Makes fun c => ∀ env, value env ⟨g d.data, c⟩ = g (d.value env) := by
  cases hc : d.companion with
  | none => exact .pure fun env => by rw [value_none hc]; rfl
  | some e =>
    refine .map ((hf e).mono fun e' he' env => ?_)
    rw [value_some hc, ← he' env]
    rfl

/-- An operand denotes the data converted to the operand type. -/
theorem operand_makes {d : Dual} {env : Env} (hd : (d.value env).ty = d.data.ty) (ty : Ty) :
    (d.operand ty).Makes fun e => e.value env = (d.value env).convert ty := by
  refine .bind d.toExpr_makes fun e he => ?_
  split
  · next hty =>
    refine .pure ?_
    rw [he env, Scalar.convert_of_ty (hd.trans hty)]
  · intro n
    show (e.value env).convert ty = _
    rw [he env]

/-- A companion that is taken apart is an application of the operator, and absorbs. -/
theorem draft?_eq_some {d : Dual} {op : Operator} {ty : Ty} {alone : Bool} {b : Draft}
    (hb : d.draft? op ty alone = some b) :
    b.op = op ∧ op.absorbs = true ∧ d.data.ty = ty ∧
      ∃ n, d.companion = some (.nary n op b.operandTy b.operands) := by
  unfold draft? at hb
  split at hb
  · next e he =>
    split at hb
    · next hc =>
      obtain ⟨habs, hty⟩ := by simpa using hc
      unfold Draft.ofExpr? at hb
      split at hb
      · next n o ty' es =>
        split at hb
        · next ho =>
          obtain ⟨-, rfl⟩ := by simpa using ho
          obtain rfl := Option.some.inj hb
          exact ⟨rfl, habs, hty, n, he⟩
        · cases hb
      · cases hb
    · cases hb
  · cases hb

/-- A companion that was taken apart applied the operator at the operand type to the operands found. -/
theorem value_of_draft {d : Dual} {env : Env} (hd : (d.value env).ty = d.data.ty) {op : Operator}
    {ty : Ty} {alone : Bool} {b : Draft} (hb : d.draft? op ty alone = some b) :
    b.op = op ∧ (op = .add → b.operandTy = ty) ∧ d.data.ty = ty ∧
      d.value env = op.native b.operandTy (b.operands.map (Expr.value env)) := by
  obtain ⟨hop, -, hty, n, he⟩ := draft?_eq_some hb
  have hv : d.value env = op.native b.operandTy (b.operands.map (Expr.value env)) := by
    rw [value_some he, Expr.value_nary]
  refine ⟨hop, ?_, hty, hv⟩
  -- a sum has the type of its operands, and the data have that type too
  rintro rfl
  rwa [hv, Operator.ty_native, hty] at hd

end Dual

/-! ### Applications -/

namespace Operator

section
variable (a b : Scalar)

theorem native_add : native .add .int [a.convert .int, b.convert .int] =
    .int (a.promoted + b.promoted) := by
  simp [native, Scalar.convert_of_ty (show (Scalar.int _).ty = .int from rfl)]

theorem native_lt : native .lt .int [a.convert .int, b.convert .int] =
    .bool (a.promoted.slt b.promoted) := by
  simp [native, chained]

theorem native_eq : native .eq .int [a.convert .int, b.convert .int] =
    .bool (a.promoted == b.promoted) := by
  simp [native, chained]

theorem native_and : native .and .bool [a.convert .bool, b.convert .bool] =
    .bool (a.isTrue && b.isTrue) := by
  simp [native]

theorem native_or : native .or .bool [a.convert .bool, b.convert .bool] =
    .bool (a.isTrue || b.isTrue) := by
  simp [native]

end

/-- Connectives do not look at the operand type. -/
theorem native_congr_ty {op : Operator} {ty ty' : Ty} (h : op.AbsorbsAt ty) (ht : op = .add → ty' = ty)
    (vs : List Scalar) : op.native ty' vs = op.native ty vs := by
  rcases h with ⟨rfl, -⟩ | rfl | rfl
  · rw [ht rfl]
  · rfl
  · rfl

/-- Only operators at which an operand type absorbs take a node apart. -/
theorem draft?_eq_none {op : Operator} (h : op = .eq ∨ op = .lt) (d : Dual) (ty : Ty) (alone : Bool) :
    d.draft? op ty alone = none := by
  unfold Dual.draft?
  rcases h with rfl | rfl <;> cases d.companion <;> rfl

/-- **An application denotes the operator over what its operands denote**, also where an operand is
taken apart. -/
theorem applyDuals_makes {op : Operator} {ty : Ty} (h : op.AbsorbsAt ty ∨ op = .eq ∨ op = .lt)
    {l r : Dual} {env : Env} (hl : (l.value env).ty = l.data.ty) (hr : (r.value env).ty = r.data.ty)
    (own : Ownership) :
    (op.applyDuals ty l r own).Makes fun e =>
      e.value env = op.native ty [(l.value env).convert ty, (r.value env).convert ty] := by
  have plain : (do Mint.binary op ty (← l.operand ty) (← r.operand ty)).Makes fun e =>
      e.value env = op.native ty [(l.value env).convert ty, (r.value env).convert ty] := by
    refine .bind (Dual.operand_makes hl ty) fun x hx => .bind (Dual.operand_makes hr ty) fun y hy => ?_
    intro n
    show (Expr.nary n op ty [x, y]).value env = _
    simp [hx, hy]
  unfold applyDuals
  rcases h with h | h
  · split
    · next b hb =>
      obtain ⟨hop, hbt, hty, hv⟩ := Dual.value_of_draft hl hb
      refine .bind (Dual.operand_makes hr ty) fun y hy n => ?_
      show (Expr.nary n b.op b.operandTy (b.operands ++ [y])).value env = _
      rw [Expr.value_nary, hop, List.map_append, List.map_singleton, native_congr_ty h hbt,
        native_concat h, ← native_congr_ty h hbt (b.operands.map _), ← hv, hy,
        Scalar.convert_of_ty (hl.trans hty)]
    · split
      · next b hb =>
        obtain ⟨hop, hbt, hty, hv⟩ := Dual.value_of_draft hr hb
        refine .bind (Dual.operand_makes hl ty) fun x hx n => ?_
        show (Expr.nary n b.op b.operandTy (x :: b.operands)).value env = _
        rw [Expr.value_nary, hop, List.map_cons, native_congr_ty h hbt, native_cons h,
          ← native_congr_ty h hbt (b.operands.map _), ← hv, hx,
          Scalar.convert_of_ty (hr.trans hty)]
      · exact plain
  · rw [draft?_eq_none h, draft?_eq_none h]
    exact plain

end Operator

/-! ### Tracked values -/

namespace Tracked

/-- A value of a type that denotes a scalar of that type under every environment. -/
structure Denotes (v : Tracked) (ty : Ty) (f : Env → Scalar) : Prop where
  ty_eq : v.ty = ty
  value_eq : ∀ env, v.toDual.value env = f env
  ty_value : ∀ env, (f env).ty = ty

section
variable {l r v : Tracked} {tl tr ty : Ty} {f g : Env → Scalar}

theorem Denotes.typed (h : v.Denotes ty f) : v.toDual.Typed := fun env => by
  rw [h.value_eq, h.ty_value, ← h.ty_eq]
  rfl

theorem new_denotes (s : Scalar) : (new s).Denotes s.ty fun _ => s := ⟨rfl, fun _ => rfl, fun _ => rfl⟩

theorem any_makes (name : String) (ty : Ty) :
    (any name ty).Makes (Denotes · ty fun env => env.value name ty) := fun _ =>
  ⟨Scalar.ty_zero ty, fun _ => rfl, fun env => env.ty_value name ty⟩

theorem castCompanion_makes (v : Tracked) (ty : Ty) :
    (v.companion.mapM (Mint.cast ty)).Makes fun c =>
      ∀ env, Dual.value env ⟨v.data.convert ty, c⟩ = (v.toDual.value env).convert ty :=
  Dual.mapM_makes (d := v.toDual) (g := fun s => s.convert ty) fun _ _ _ => rfl

theorem notCompanion_makes (v : Tracked) :
    (v.companion.mapM Mint.not).Makes fun c =>
      ∀ env, Dual.value env ⟨.bool !v.isTrue, c⟩ = .bool !(v.toDual.value env).isTrue :=
  Dual.mapM_makes (g := fun s => .bool !s.isTrue) fun _ _ _ => rfl

theorem cast_makes (hv : v.Denotes tl f) (ty : Ty) :
    (v.cast ty).Makes (Denotes · ty fun env => (f env).convert ty) := by
  unfold cast
  split
  · next h =>
    have ht : tl = ty := hv.ty_eq.symm.trans h
    refine .pure ⟨h, fun env => ?_, fun env => Scalar.ty_convert _ _⟩
    rw [hv.value_eq, Scalar.convert_of_ty ((hv.ty_value env).trans ht)]
  · refine .bind (v.castCompanion_makes ty) fun c hc => .pure ?_
    refine ⟨Scalar.ty_convert _ _, fun env => ?_, fun env => Scalar.ty_convert _ _⟩
    rw [← hv.value_eq]
    exact hc env

theorem not_makes (hv : v.Denotes .bool f) :
    v.not.Makes (Denotes · .bool fun env => .bool !(f env).isTrue) := by
  refine .bind v.notCompanion_makes fun c hc => .pure ⟨rfl, fun env => ?_, fun env => rfl⟩
  rw [← hv.value_eq]
  exact hc env

/-- A result combined from two operands denotes the operator over what they denote, if its data are
the operator over theirs. -/
theorem combine_makes {op : Operator} (h : op.AbsorbsAt ty ∨ op = .eq ∨ op = .lt) {data : Scalar}
    (hl : l.Denotes tl f) (hr : r.Denotes tr g)
    (hdata : data = op.native ty [l.data.convert ty, r.data.convert ty]) (own : Ownership) :
    (combine op ty data l r own).Makes
      (Denotes · (op.resultTy ty) fun env => op.native ty [(f env).convert ty, (g env).convert ty]) := by
  have result : ∀ c, (∀ env, Dual.value env ⟨data, c⟩ =
      op.native ty [(f env).convert ty, (g env).convert ty]) →
      Denotes ⟨⟨⟨data, c⟩, l.concrete && r.concrete, 0⟩, none⟩ (op.resultTy ty) fun env =>
        op.native ty [(f env).convert ty, (g env).convert ty] := by
    intro c hc
    refine ⟨?_, hc, fun env => Operator.ty_native _ _ _⟩
    show data.ty = _
    rw [hdata, Operator.ty_native]
  unfold combine
  split
  · refine .bind (P := fun c => ∀ env, Dual.value env ⟨data, c⟩ =
      op.native ty [(f env).convert ty, (g env).convert ty]) (.map ?_) fun c hc => .pure (result c hc)
    intro n env
    rw [← hl.value_eq, ← hr.value_eq]
    exact Operator.applyDuals_makes h (hl.typed env) (hr.typed env) own n
  · next hs =>
    have hsym : l.companion = none ∧ r.companion = none := by
      simpa [isSymbolic, Option.isSome_eq_false_iff] using hs
    refine .pure (result none fun env => ?_)
    rw [← hl.value_eq, ← hr.value_eq, Dual.value_none hsym.1, Dual.value_none hsym.2]
    exact hdata

theorem add_makes (hl : l.Denotes tl f) (hr : r.Denotes tr g) (own : Ownership) :
    (l.add r own).Makes (Denotes · .int fun env => .int ((f env).promoted + (g env).promoted)) := by
  unfold add
  rw [Ty.common_eq_int]
  have h := combine_makes (.inl (.inl ⟨rfl, rfl⟩)) hl hr (Operator.native_add _ _).symm own
  simp only [Operator.native_add] at h
  exact h

theorem lt_makes (hl : l.Denotes tl f) (hr : r.Denotes tr g) (own : Ownership) :
    (l.lt r own).Makes (Denotes · .bool fun env => .bool ((f env).promoted.slt (g env).promoted)) := by
  unfold lt
  rw [Ty.common_eq_int]
  have h := combine_makes (.inr (.inr rfl)) hl hr (Operator.native_lt _ _).symm own
  simp only [Operator.native_lt] at h
  exact h

theorem equals_makes (hl : l.Denotes tl f) (hr : r.Denotes tr g) (own : Ownership) :
    (l.equals r own).Makes (Denotes · .bool fun env => .bool ((f env).promoted == (g env).promoted)) := by
  unfold equals
  rw [Ty.common_eq_int]
  have h := combine_makes (.inr (.inl rfl)) hl hr (Operator.native_eq _ _).symm own
  simp only [Operator.native_eq] at h
  exact h

theorem and_makes (hl : l.Denotes .bool f) (hr : r.Denotes .bool g) (own : Ownership) :
    (l.and r own).Makes (Denotes · .bool fun env => .bool ((f env).isTrue && (g env).isTrue)) := by
  have h := combine_makes (.inl (.inr (.inl rfl))) hl hr (Operator.native_and _ _).symm own
  simp only [Operator.native_and] at h
  exact h

theorem or_makes (hl : l.Denotes .bool f) (hr : r.Denotes .bool g) (own : Ownership) :
    (l.or r own).Makes (Denotes · .bool fun env => .bool ((f env).isTrue || (g env).isTrue)) := by
  have h := combine_makes (.inl (.inr (.inr rfl))) hl hr (Operator.native_or _ _).symm own
  simp only [Operator.native_or] at h
  exact h

end

end Tracked

end Symex
