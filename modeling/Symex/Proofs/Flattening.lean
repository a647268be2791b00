import Symex.Proofs.TermStructure
import Symex.Proofs.Typing

/-!
Flattening. An application whose operand is itself an application of the operator is one node over all
operands instead of a node above a node. Whoever holds the operand, the two have the same type, and if the
nested one has a term then so has the flat one, with the same value or the same failure in every model.
Sums are the exception: addition is clamped, so it can be regrouped only as long as nothing is clamped.
-/

namespace Symex

open Smt (Term Value Model)

/-! ### Regrouping operands -/

section
variable {ε α β : Type} {g : β → Except ε α} {f : List α → α} {t v : β} {ts : List β}

/-- If operands read together give what one reads, that one can stand for them before another. -/
theorem mapM_group_init (hf : ∀ as a, f (as ++ [a]) = f [f as, a]) (ht : g t = f <$> ts.mapM g) :
    f <$> (ts ++ [v]).mapM g = f <$> [t, v].mapM g := by
  have hpair : [t, v].mapM g = g t >>= fun a => [v].mapM g >>= fun as => pure (a :: as) := List.mapM_cons
  rw [List.mapM_append, hpair, ht, List.mapM_cons]
  cases ts.mapM g with
  | error e => rfl
  | ok as =>
    cases g v with
    | error e => rfl
    | ok a => exact congrArg Except.ok (hf as a)

/-- Behind another it can if the readings at hand may be regrouped. -/
theorem mapM_group_tail (hf : ∀ a as, g v = .ok a → ts.mapM g = .ok as → f (a :: as) = f [a, f as])
    (ht : g t = f <$> ts.mapM g) : f <$> (v :: ts).mapM g = f <$> [v, t].mapM g := by
  rw [List.mapM_cons, List.mapM_cons, List.mapM_cons, ht]
  cases hv : g v with
  | error e => rfl
  | ok a =>
    cases hts : ts.mapM g with
    | error e => rfl
    | ok as => exact congrArg Except.ok (hf a as hv hts)

end

namespace Smt

/-! ### Sums that are not clamped -/

/-- Whether all partial sums of integers, added to a first one, are integers of 64 bits. -/
def sumsWithin (first : Int) : List Int → Bool
  | [] => true
  | i :: is =>
    (-9223372036854775808 ≤ first + i && first + i ≤ 9223372036854775807) && sumsWithin (first + i) is

theorem sumsWithin_cons {first i : Int} {is : List Int} : sumsWithin first (i :: is) = true ↔
    (-9223372036854775808 ≤ first + i ∧ first + i ≤ 9223372036854775807) ∧
      sumsWithin (first + i) is = true := by
  simp [sumsWithin]

theorem clampedAdd_eq {a b : Int} (hlo : -9223372036854775808 ≤ a + b) (hhi : a + b ≤ 9223372036854775807) :
    clampedAdd a b = a + b := by
  rw [clampedAdd]
  omega

/-- Whatever is added, the sum stays within 64 bits. -/
theorem foldl_clampedAdd_bounds (is : List Int) {first : Int} (hlo : -9223372036854775808 ≤ first)
    (hhi : first ≤ 9223372036854775807) :
    -9223372036854775808 ≤ is.foldl clampedAdd first ∧ is.foldl clampedAdd first ≤ 9223372036854775807 := by
  induction is generalizing first with
  | nil => exact ⟨hlo, hhi⟩
  | cons i is ih =>
    have hsum : -9223372036854775808 ≤ clampedAdd first i ∧ clampedAdd first i ≤ 9223372036854775807 := by
      rw [clampedAdd]
      omega
    exact ih hsum.1 hsum.2

/-- A sum of its own is a sum within 64 bits, so it can be added to nothing first. -/
theorem foldl_clampedAdd_concat (is : List Int) (i : Int) :
    (is ++ [i]).foldl clampedAdd 0 = [is.foldl clampedAdd 0, i].foldl clampedAdd 0 := by
  obtain ⟨hlo, hhi⟩ := foldl_clampedAdd_bounds is (show -9223372036854775808 ≤ (0 : Int) by decide) (by decide)
  have hzero : clampedAdd 0 (is.foldl clampedAdd 0) = is.foldl clampedAdd 0 := by
    rw [clampedAdd_eq] <;> omega
  simp [hzero]

/-- As long as nothing is clamped, integers may be added up before they are added to another. -/
theorem clampedAdd_foldl {is : List Int} {a b : Int} (hlo : -9223372036854775808 ≤ a + b)
    (hhi : a + b ≤ 9223372036854775807) (hb : sumsWithin b is = true) (hab : sumsWithin (a + b) is = true) :
    clampedAdd a (is.foldl clampedAdd b) = is.foldl clampedAdd (a + b) := by
  induction is generalizing b with
  | nil => exact clampedAdd_eq hlo hhi
  | cons i is ih =>
    obtain ⟨⟨hlo₁, hhi₁⟩, hb⟩ := sumsWithin_cons.1 hb
    obtain ⟨⟨hlo₂, hhi₂⟩, hab⟩ := sumsWithin_cons.1 hab
    have hassoc : a + b + i = a + (b + i) := by omega
    rw [hassoc] at hlo₂ hhi₂ hab
    calc clampedAdd a (is.foldl clampedAdd (clampedAdd b i))
        = clampedAdd a (is.foldl clampedAdd (b + i)) := by rw [clampedAdd_eq hlo₁ hhi₁]
      _ = is.foldl clampedAdd (a + (b + i)) := ih hlo₂ hhi₂ hb hab
      _ = is.foldl clampedAdd (clampedAdd (a + b) i) := by
        rw [clampedAdd_eq, hassoc] <;> omega

theorem foldl_clampedAdd_cons {i : Int} {is : List Int} (htail : sumsWithin 0 is = true)
    (hall : sumsWithin 0 (i :: is) = true) :
    (i :: is).foldl clampedAdd 0 = [i, is.foldl clampedAdd 0].foldl clampedAdd 0 := by
  obtain ⟨⟨hlo, hhi⟩, hrest⟩ := sumsWithin_cons.1 hall
  have hfirst : clampedAdd 0 i = i + 0 := by
    rw [clampedAdd_eq hlo hhi, Int.add_comm]
  have hsum : clampedAdd (i + 0) (is.foldl clampedAdd 0) = is.foldl clampedAdd (i + 0) := by
    rw [Int.add_comm] at hlo hhi hrest
    conv => lhs; rw [Int.add_zero]
    exact clampedAdd_foldl hlo hhi htail hrest
  show is.foldl clampedAdd (clampedAdd 0 i) = clampedAdd (clampedAdd 0 i) (is.foldl clampedAdd 0)
  rw [hfirst, hsum]

/-! ### Nested connectives -/

namespace Model

variable {m : Model} {v : Term} {ts : List Term}

/-- The value of an integer term. -/
def integer (m : Model) (t : Term) : Except Error Int := do (← m.eval t).asInt

theorem evalInts_eq_mapM (m : Model) (ts : List Term) : m.evalInts ts = ts.mapM m.integer := by
  induction ts with
  | nil => rfl
  | cons t ts ih => rw [evalInts, List.mapM_cons, ih, integer, bind_assoc]

theorem eval_and : m.eval (.and ts) = Value.bool <$> ((·.all id) <$> ts.mapM m.satisfies) := by
  rw [eval, evalBools_eq_mapM]
  cases ts.mapM m.satisfies <;> rfl

theorem eval_or : m.eval (.or ts) = Value.bool <$> ((·.any id) <$> ts.mapM m.satisfies) := by
  rw [eval, evalBools_eq_mapM]
  cases ts.mapM m.satisfies <;> rfl

theorem eval_add : m.eval (.add ts) = Value.int <$> ((·.foldl clampedAdd 0) <$> ts.mapM m.integer) := by
  rw [eval, evalInts_eq_mapM]
  cases ts.mapM m.integer <;> rfl

theorem satisfies_and : m.satisfies (.and ts) = (·.all id) <$> ts.mapM m.satisfies := by
  rw [satisfies, eval_and]
  cases ts.mapM m.satisfies <;> rfl

theorem satisfies_or : m.satisfies (.or ts) = (·.any id) <$> ts.mapM m.satisfies := by
  rw [satisfies, eval_or]
  cases ts.mapM m.satisfies <;> rfl

theorem integer_add : m.integer (.add ts) = (·.foldl clampedAdd 0) <$> ts.mapM m.integer := by
  rw [integer, eval_add]
  cases ts.mapM m.integer <;> rfl

/-- Whether no partial sum of a sum leaves the integers of 64 bits; nothing is added up if an operand has
no value. -/
def unclamped (m : Model) : Term → Bool
  | .add ts =>
    match m.evalInts ts with
    | .ok is => sumsWithin 0 is
    | .error _ => true
  | _ => true

theorem sumsWithin_of_unclamped {is : List Int} (h : m.unclamped (.add ts) = true)
    (hts : ts.mapM m.integer = .ok is) : sumsWithin 0 is = true := by
  rw [← evalInts_eq_mapM] at hts
  simpa [unclamped, hts] using h

theorem eval_and_concat : m.eval (.and (ts ++ [v])) = m.eval (.and [.and ts, v]) := by
  rw [eval_and, eval_and, mapM_group_init (by simp) satisfies_and]

theorem eval_and_cons : m.eval (.and (v :: ts)) = m.eval (.and [v, .and ts]) := by
  rw [eval_and, eval_and, mapM_group_tail (by simp) satisfies_and]

theorem eval_or_concat : m.eval (.or (ts ++ [v])) = m.eval (.or [.or ts, v]) := by
  rw [eval_or, eval_or, mapM_group_init (by simp) satisfies_or]

theorem eval_or_cons : m.eval (.or (v :: ts)) = m.eval (.or [v, .or ts]) := by
  rw [eval_or, eval_or, mapM_group_tail (by simp) satisfies_or]

theorem eval_add_concat : m.eval (.add (ts ++ [v])) = m.eval (.add [.add ts, v]) := by
  rw [eval_add, eval_add, mapM_group_init foldl_clampedAdd_concat integer_add]

theorem eval_add_cons (hall : m.unclamped (.add (v :: ts)) = true) (htail : m.unclamped (.add ts) = true) :
    m.eval (.add (v :: ts)) = m.eval (.add [v, .add ts]) := by
  rw [eval_add, eval_add, mapM_group_tail (fun i is hi his => ?_) integer_add]
  have hcons : (v :: ts).mapM m.integer = .ok (i :: is) := by
    rw [List.mapM_cons, hi, his]
    rfl
  exact foldl_clampedAdd_cons (sumsWithin_of_unclamped htail his) (sumsWithin_of_unclamped hall hcons)

end Model

end Smt

/-! ### Terms of flat applications -/

namespace Operator

variable {op : Operator} {ts : List Term} {t u v : Term}

/-- An operand is added at the end. Sums need no condition here: they are added up from the left. -/
theorem applyTerms_concat (habs : op.absorbs = true) (hu : op.applyTerms ts = .ok u)
    (ht : op.applyTerms [u, v] = .ok t) :
    ∃ t', op.applyTerms (ts ++ [v]) = .ok t' ∧ ∀ m : Model, m.eval t' = m.eval t := by
  match ts with
  | [] => cases hu
  | [w] =>
    -- an operand alone stands for its application, so the two terms are one
    rw [applyTerms, if_pos (absorbs_eq op ▸ habs)] at hu
    cases hu
    exact ⟨t, ht, fun _ => rfl⟩
  | w :: w' :: ts =>
    cases op with
    | add =>
      cases hu
      cases ht
      exact ⟨.add (w :: w' :: ts ++ [v]), rfl, fun m => Model.eval_add_concat⟩
    | and =>
      cases hu
      cases ht
      exact ⟨.and (w :: w' :: ts ++ [v]), rfl, fun m => Model.eval_and_concat⟩
    | or =>
      cases hu
      cases ht
      exact ⟨.or (w :: w' :: ts ++ [v]), rfl, fun m => Model.eval_or_concat⟩
    | not | eq | lt => cases habs

/-- An operand is added at the front. -/
theorem applyTerms_cons (habs : op.absorbs = true) (hu : op.applyTerms ts = .ok u)
    (ht : op.applyTerms [v, u] = .ok t) :
    ∃ t', op.applyTerms (v :: ts) = .ok t' ∧ ∀ m : Model,
      (op = .add → ∀ w ∈ t' :: t.operands, m.unclamped w = true) → m.eval t' = m.eval t := by
  match ts with
  | [] => cases hu
  | [w] =>
    rw [applyTerms, if_pos (absorbs_eq op ▸ habs)] at hu
    cases hu
    exact ⟨t, ht, fun _ _ => rfl⟩
  | w :: w' :: ts =>
    cases op with
    | add =>
      cases hu
      cases ht
      refine ⟨_, rfl, fun m hm => ?_⟩
      have hsums := hm rfl
      exact Model.eval_add_cons (hsums _ (by simp)) (hsums _ (by simp [Term.operands]))
    | and =>
      cases hu
      cases ht
      exact ⟨_, rfl, fun m _ => Model.eval_and_cons⟩
    | or =>
      cases hu
      cases ht
      exact ⟨_, rfl, fun m _ => Model.eval_or_cons⟩
    | not | eq | lt => cases habs

end Operator

/-! ### Encoding operands together -/

/-- From the free variables noted before, a computation gives a result and notes others. -/
def Encoding.Gives {α : Type} (x : Encoding α) (free : FreeSorts) (a : α) (free' : FreeSorts) : Prop :=
  x.run.run free = (.ok a, free')

namespace Encoding

variable {α β : Type} {free free' : FreeSorts}

theorem gives_bind {x : Encoding α} {f : α → Encoding β} {b : β} :
    (x >>= f).Gives free b free' ↔ ∃ a mid, x.Gives free a mid ∧ (f a).Gives mid b free' := by
  have hrun : (x >>= f).run.run free = ExceptT.bindCont f (x.run.run free).1 (x.run.run free).2 := rfl
  unfold Gives
  rw [hrun]
  obtain ⟨r, mid⟩ := x.run.run free
  cases r with
  | error e =>
    constructor
    · intro h
      cases h
    · rintro ⟨a, mid', hx, -⟩
      cases hx
  | ok a =>
    constructor
    · intro h
      exact ⟨a, mid, rfl, h⟩
    · rintro ⟨a', mid', hx, h⟩
      cases hx
      exact h

theorem gives_pure {a b : α} : (pure a : Encoding α).Gives free b free' ↔ a = b ∧ free = free' := by
  constructor
  · intro h
    cases h
    exact ⟨rfl, rfl⟩
  · rintro ⟨rfl, rfl⟩
    rfl

theorem gives_ofExcept {r : Except Error α} {a : α} :
    (liftM r : Encoding α).Gives free a free' ↔ r = .ok a ∧ free = free' := by
  constructor
  · intro h
    cases h
    exact ⟨rfl, rfl⟩
  · rintro ⟨rfl, rfl⟩
    rfl

end Encoding

namespace Expr

variable {free free' : FreeSorts} {e : Expr} {es fs : List Expr}

open Encoding (gives_bind gives_pure gives_ofExcept)

theorem encode_nary_gives {n : Nat} {op : Operator} {ty : Ty} {t : Term} :
    (Expr.nary n op ty es).encode.Gives free t free' ↔
      ∃ ts, (encodeAll es).Gives free ts free' ∧ op.applyTerms ts = .ok t := by
  rw [encode, gives_bind]
  constructor
  · rintro ⟨ts, mid, hts, h⟩
    obtain ⟨ht, rfl⟩ := gives_ofExcept.1 h
    exact ⟨ts, hts, ht⟩
  · rintro ⟨ts, hts, ht⟩
    exact ⟨ts, free', hts, gives_ofExcept.2 ⟨ht, rfl⟩⟩

theorem encodeAll_cons_gives {ts : List Term} :
    (encodeAll (e :: es)).Gives free ts free' ↔ ∃ t us mid,
      e.encode.Gives free t mid ∧ (encodeAll es).Gives mid us free' ∧ ts = t :: us := by
  simp only [encodeAll, gives_bind, gives_pure]
  constructor
  · rintro ⟨t, mid, ht, us, _, hus, rfl, rfl⟩
    exact ⟨t, us, mid, ht, hus, rfl⟩
  · rintro ⟨t, us, mid, ht, hus, rfl⟩
    exact ⟨t, mid, ht, us, free', hus, rfl, rfl⟩

theorem encodeAll_pair_gives {e' : Expr} {ts : List Term} :
    (encodeAll [e, e']).Gives free ts free' ↔ ∃ t t' mid,
      e.encode.Gives free t mid ∧ e'.encode.Gives mid t' free' ∧ ts = [t, t'] := by
  simp only [encodeAll_cons_gives]
  constructor
  · rintro ⟨t, _, mid, ht, ⟨t', _, _, ht', hnil, rfl⟩, rfl⟩
    obtain ⟨rfl, rfl⟩ := gives_pure.1 hnil
    exact ⟨t, t', mid, ht, ht', rfl⟩
  · rintro ⟨t, t', mid, ht, ht', rfl⟩
    exact ⟨t, [t'], mid, ht, ⟨t', [], free', ht', rfl, rfl⟩, rfl⟩

theorem encodeAll_concat_gives {ts : List Term} {t : Term} {mid : FreeSorts}
    (hts : (encodeAll es).Gives free ts mid) (ht : e.encode.Gives mid t free') :
    (encodeAll (es ++ [e])).Gives free (ts ++ [t]) free' := by
  induction es generalizing free ts with
  | nil =>
    obtain ⟨rfl, rfl⟩ := gives_pure.1 hts
    exact encodeAll_cons_gives.2 ⟨t, [], free', ht, rfl, rfl⟩
  | cons e₀ es ih =>
    obtain ⟨t₀, us, between, ht₀, hus, rfl⟩ := encodeAll_cons_gives.1 hts
    exact encodeAll_cons_gives.2 ⟨t₀, us ++ [t], between, ht₀, ih hus, rfl⟩

end Expr

/-! ### Applications to two operands -/

namespace Operator.Joins

variable {op : Operator} {ty : Ty} {x y e : Expr}

/-- The operator of an application that has the operand type gives it to every application. -/
theorem resultTy_eq {u : Ty} (h : op.resultTy u = ty) : op.resultTy u = op.resultTy ty := by
  unfold resultTy at h ⊢
  split
  · rfl
  · next hb => rwa [if_neg hb] at h

theorem ty_eq (h : op.Joins ty x y e) (hx : x.ty = ty) (hy : y.ty = ty) : e.ty = op.resultTy ty := by
  cases h with
  | above n => rfl
  | takesLast n habs he =>
    subst he
    exact resultTy_eq hx
  | takesFirst n habs he =>
    subst he
    exact resultTy_eq hy

/-- If the node above both operands has a term, then so has every other form, and they mean the same. -/
theorem encode_gives (h : op.Joins ty x y e) {n : Nat} {free free' : FreeSorts} {t : Term}
    (ht : (Expr.nary n op ty [x, y]).encode.Gives free t free') :
    ∃ t', e.encode.Gives free t' free' ∧ ∀ m : Model,
      (op = .add → ∀ u ∈ t' :: t.operands, m.unclamped u = true) → m.eval t' = m.eval t := by
  obtain ⟨_, hxy, happ⟩ := Expr.encode_nary_gives.1 ht
  cases h with
  | above k => exact ⟨t, Expr.encode_nary_gives.2 ⟨_, hxy, happ⟩, fun _ _ => rfl⟩
  | takesLast k habs he =>
    subst he
    obtain ⟨u, v, mid, hu, hv, rfl⟩ := Expr.encodeAll_pair_gives.1 hxy
    obtain ⟨ts, hts, hu⟩ := Expr.encode_nary_gives.1 hu
    obtain ⟨t', ht', heval⟩ := applyTerms_concat habs hu happ
    exact ⟨t', Expr.encode_nary_gives.2 ⟨_, Expr.encodeAll_concat_gives hts hv, ht'⟩, fun m _ => heval m⟩
  | takesFirst k habs he =>
    subst he
    obtain ⟨v, u, mid, hv, hu, rfl⟩ := Expr.encodeAll_pair_gives.1 hxy
    obtain ⟨ts, hts, hu⟩ := Expr.encode_nary_gives.1 hu
    obtain ⟨t', ht', heval⟩ := applyTerms_cons habs hu happ
    have hall := Expr.encodeAll_cons_gives.2 ⟨v, ts, mid, hv, hts, rfl⟩
    exact ⟨t', Expr.encode_nary_gives.2 ⟨_, hall, ht'⟩, heval⟩

end Operator.Joins

namespace Dual

/-- The companion has the type of the data. -/
def Tagged (d : Dual) : Prop := ∀ e, d.companion = some e → e.ty = d.data.ty

theorem Tagged.toExpr_ty {d : Dual} (h : d.Tagged) (n : Nat) : (d.toExpr n).1.ty = d.data.ty := by
  unfold toExpr
  cases he : d.companion with
  | some e => exact h e he
  | none => rfl

theorem Tagged.operand_ty {d : Dual} (h : d.Tagged) (ty : Ty) (n : Nat) : (d.operand ty n).1.ty = ty := by
  rw [operand, Mint.bind_apply]
  by_cases hty : d.data.ty = ty
  · rw [if_pos hty]
    exact (h.toExpr_ty n).trans hty
  · rw [if_neg hty]
    rfl

end Dual

namespace Operator

/-- The node above two operands, whatever they are. -/
def nestDuals (op : Operator) (ty : Ty) (l r : Dual) : Mint Expr := do
  let x ← l.operand ty
  let y ← r.operand ty
  Mint.binary op ty x y

/-- An application means what the node above its operands means, whoever holds their companions: it has
the same type if companions have the types of their data, it has a term with the same free variables if
that node has one, and the terms have the same value or fail alike in every model. Only sums ask for
something, namely that no partial sum is clamped. -/
theorem applyDuals_means_nested (op : Operator) (ty : Ty) (l r : Dual) (own : Ownership) (n : Nat) :
    (l.Tagged → r.Tagged → (op.applyDuals ty l r own n).1.ty = (op.nestDuals ty l r n).1.ty) ∧
      ∀ free t free', (op.nestDuals ty l r n).1.encode.Gives free t free' →
        ∃ t', (op.applyDuals ty l r own n).1.encode.Gives free t' free' ∧ ∀ m : Model,
          (op = .add → ∀ u ∈ t' :: t.operands, m.unclamped u = true) → m.eval t' = m.eval t := by
  have hjoins := op.applyDuals_joins ty l r own n
  constructor
  · intro hl hr
    exact hjoins.ty_eq (hl.operand_ty ty n) (hr.operand_ty ty _)
  · intro free t free' ht
    exact hjoins.encode_gives ht

/-- A value that nobody shares is a sum of two already and is added to a third, so it takes that one in at
the front. -/
theorem sum_means_nested :
    let x : Dual := ⟨.int 3, some (.any 0 "x" .int)⟩
    let yz : Dual := ⟨.int 9, some (.nary 3 .add .int [.any 1 "y" .int, .any 2 "z" .int])⟩
    let free : FreeSorts := [("x", .int), ("y", .int), ("z", .int)]
    let m : Model := { consts := [("x", .int 3), ("y", .int 4), ("z", .int 5)] }
    let nested := Term.add [.const "x" .int, .add [.const "y" .int, .const "z" .int]]
    (Operator.add.nestDuals .int x yz 4).1.encode.Gives [] nested free ∧
      ∃ t', t' ≠ nested ∧ (Operator.add.applyDuals .int x yz ⟨false, true⟩ 4).1.encode.Gives [] t' free ∧
        m.eval t' = m.eval nested := by
  intro x yz free m nested
  have hnested : (Operator.add.nestDuals .int x yz 4).1.encode.Gives [] nested free := rfl
  obtain ⟨t', ht', heval⟩ := (applyDuals_means_nested .add .int x yz ⟨false, true⟩ 4).2 [] nested free hnested
  obtain rfl : .add [.const "x" .int, .const "y" .int, .const "z" .int] = t' := by
    cases ht'
    rfl
  refine ⟨hnested, _, by decide, ht', heval m fun _ => ?_⟩
  decide

end Operator

end Symex
