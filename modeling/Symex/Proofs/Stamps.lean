import Symex.Path
import Symex.Proofs.Satisfaction
import Symex.Scope.Conditional
import Symex.Scope.Loop

/-!
Stamps. They are handed out in order (`Advances`), so a node that is built is newer than all there were
(`Fresh`), and what an operation makes has a new companion or is one of its operands (`Renews`).
-/

namespace Symex

/-! ### Handing out stamps -/

namespace Mint

section
variable {α β : Type}

theorem bind_apply (x : Mint α) (f : α → Mint β) (n : Nat) : (x >>= f) n = f (x n).1 (x n).2 := rfl

/-- Stamps are handed out in order. -/
def Advances (x : Mint α) : Prop := ∀ n, n ≤ (x n).2

theorem Advances.pure (a : α) : Advances (Pure.pure a) := fun n => Nat.le_refl n

theorem Advances.bind {x : Mint α} {f : α → Mint β} (hx : x.Advances) (hf : ∀ a, (f a).Advances) :
    Advances (x >>= f) :=
  fun n => Nat.le_trans (hx n) (hf _ _)

/-- The node that was built has the last stamp. -/
def Fresh (x : Mint Expr) : Prop := ∀ n, n ≤ (x n).1.stamp ∧ (x n).2 = (x n).1.stamp + 1

theorem Fresh.advances {x : Mint Expr} (h : x.Fresh) : x.Advances := by
  intro n
  have hn := h n
  omega

theorem Fresh.bind {x : Mint α} {f : α → Mint Expr} (hx : x.Advances) (hf : ∀ a, (f a).Fresh) :
    Fresh (x >>= f) := by
  intro n
  have h1 := hx n
  have h2 := hf (x n).1 (x n).2
  exact ⟨Nat.le_trans h1 h2.1, h2.2⟩

end

theorem any_fresh (name : String) (ty : Ty) : (any name ty).Fresh := fun n => ⟨Nat.le_refl n, rfl⟩

theorem lit_fresh (value : Scalar) (name : Option String) : (lit value name).Fresh :=
  fun n => ⟨Nat.le_refl n, rfl⟩

theorem cast_fresh (ty : Ty) (e : Expr) : (cast ty e).Fresh := fun n => ⟨Nat.le_refl n, rfl⟩

theorem unary_fresh (op : Operator) (e : Expr) : (unary op e).Fresh := fun n => ⟨Nat.le_refl n, rfl⟩

theorem ite_fresh (c y z : Expr) : (ite c y z).Fresh := fun n => ⟨Nat.le_refl n, rfl⟩

theorem nary_fresh (op : Operator) (ty : Ty) (es : List Expr) : (nary op ty es).Fresh :=
  fun n => ⟨Nat.le_refl n, rfl⟩

end Mint

theorem Draft.close_fresh (b : Draft) : b.close.Fresh := Mint.nary_fresh _ _ _

namespace Dual

theorem toExpr_advances (d : Dual) : d.toExpr.Advances := by
  unfold toExpr
  split
  · exact .pure _
  · exact (Mint.lit_fresh _ _).advances

theorem operand_advances (d : Dual) (ty : Ty) : (d.operand ty).Advances := by
  refine .bind d.toExpr_advances fun e => ?_
  split
  · exact .pure e
  · exact (Mint.cast_fresh ty e).advances

end Dual

theorem Operator.applyDuals_fresh (op : Operator) (ty : Ty) (l r : Dual) (own : Ownership) :
    (op.applyDuals ty l r own).Fresh := by
  unfold applyDuals
  split
  · exact .bind (r.operand_advances ty) fun _ => Draft.close_fresh _
  · split
    · exact .bind (l.operand_advances ty) fun _ => Draft.close_fresh _
    · exact .bind (l.operand_advances ty) fun _ => .bind (r.operand_advances ty) fun _ =>
        Mint.nary_fresh _ _ _

theorem Path.branch_advances (p : Path) (cond : Tracked) : (p.branch cond).Advances := by
  unfold branch
  split
  · split
    · exact .pure _
    · exact .bind (Mint.unary_fresh _ _).advances fun _ => .pure _
  · exact .pure _

/-! ### What is new -/

/-- A companion that was built between two stamps, or none at all; or one of some data there were. -/
def Dual.Renewed (old : List Dual) (n n' : Nat) (d : Dual) : Prop :=
  (∀ e, d.companion = some e → n ≤ e.stamp ∧ e.stamp < n') ∨ d ∈ old

/-- What is made is new or was there. -/
def Mint.Renews {α : Type} (x : Mint α) (view : α → Dual) (old : List Dual) : Prop :=
  ∀ n, n ≤ (x n).2 ∧ (view (x n).1).Renewed old n (x n).2

section
variable {α β : Type} {view : α → Dual} {was : List Dual}

open Mint (Renews Advances)

theorem Mint.Renews.old {a : α} (h : view a ∈ was) : Renews (Pure.pure a) view was :=
  fun n => ⟨Nat.le_refl n, .inr h⟩

theorem Mint.Renews.none {a : α} (h : (view a).companion = none) : Renews (Pure.pure a) view was := by
  refine fun n => ⟨Nat.le_refl n, .inl fun e he => ?_⟩
  have he : (view a).companion = some e := he
  rw [h] at he
  cases he

theorem Mint.Renews.mono {x : Mint α} (hx : x.Renews view was) {was' : List Dual}
    (h : ∀ d ∈ was, d ∈ was') : x.Renews view was' :=
  fun n => ⟨(hx n).1, (hx n).2.imp_right (h _)⟩

/-- A node that was just built becomes a companion. -/
theorem Mint.Renews.fresh {x : Mint Expr} (hx : x.Fresh) {f : Expr → α}
    (hf : ∀ e, (view (f e)).companion = some e) : Renews (x >>= fun e => Pure.pure (f e)) view was := by
  intro n
  have hn := hx n
  refine ⟨?_, .inl fun e he => ?_⟩
  · show n ≤ (x n).2
    omega
  · obtain rfl : (x n).1 = e := Option.some.inj ((hf _).symm.trans he)
    show n ≤ (x n).1.stamp ∧ (x n).1.stamp < (x n).2
    omega

theorem Mint.Renews.after {x : Mint β} (hx : x.Advances) {f : β → Mint α}
    (hf : ∀ b, (f b).Renews view was) : Renews (x >>= f) view was := by
  intro n
  have h1 := hx n
  obtain ⟨h2, h3⟩ := hf (x n).1 (x n).2
  refine ⟨Nat.le_trans h1 h2, h3.imp_left fun hnew e he => ?_⟩
  have := hnew e he
  exact ⟨Nat.le_trans h1 this.1, this.2⟩

/-- What is made from a result that is new or was there, and is that result or new itself. -/
theorem Mint.Renews.bind {x : Mint β} (seen : β → Dual) (hx : x.Renews seen was) {f : β → Mint α}
    (hf : ∀ b, (f b).Renews view (seen b :: was)) : Renews (x >>= f) view was := by
  intro n
  obtain ⟨h1, h2⟩ := hx n
  obtain ⟨h3, h4⟩ := hf (x n).1 (x n).2
  refine ⟨Nat.le_trans h1 h3, ?_⟩
  show (view (f (x n).1 (x n).2).1).Renewed was n (f (x n).1 (x n).2).2
  rcases h4 with hnew | hmem
  · left
    intro e he
    have := hnew e he
    omega
  · rcases List.mem_cons.1 hmem with heq | hmem
    · rw [heq]
      exact h2.imp_left fun hnew e he => by
        have := hnew e he
        omega
    · exact .inr hmem

end

/-! ### Tracked values -/

namespace Tracked

open Mint (Renews)

variable (l r v w : Tracked) (own : Ownership)

theorem any_renews (name : String) (ty : Ty) : (any name ty).Renews (·.toDual) [] :=
  .fresh (Mint.any_fresh _ _) fun _ => rfl

theorem symbolize_renews (name : String) : (v.symbolize name).Renews (·.toDual) [] := by
  unfold symbolize
  split
  · exact .fresh (Mint.lit_fresh _ _) fun _ => rfl
  · exact .fresh (Mint.any_fresh _ _) fun _ => rfl

theorem cast_renews (ty : Ty) : (v.cast ty).Renews (·.toDual) [v.toDual] := by
  unfold cast
  split
  · exact .old (List.mem_singleton_self _)
  · cases v.companion with
    | none => exact .none rfl
    | some e => exact .fresh (Mint.cast_fresh ty e) fun _ => rfl

theorem not_renews : v.not.Renews (·.toDual) [] := by
  unfold not
  cases v.companion with
  | none => exact .none rfl
  | some e => exact .fresh (Mint.unary_fresh .not e) fun _ => rfl

theorem assign_renews : (v.assign w).Renews (·.toDual) [w.toDual] :=
  .bind _ (w.cast_renews v.ty) fun _ => .old List.mem_cons_self

theorem combine_renews (op : Operator) (ty : Ty) (data : Scalar) :
    (combine op ty data l r own).Renews (·.toDual) [] := by
  unfold combine
  split
  · exact .fresh (op.applyDuals_fresh ty l.toDual r.toDual own) fun _ => rfl
  · exact .none rfl

end Tracked

/-! ### Joins -/

open Mint (Renews)

theorem joinArms_renews (g : Tracked) (e : Expr) (yes no : Slot) (version : Nat) :
    (joinArms g e yes no version).Renews (·.toDual) [yes.toDual, no.toDual] := by
  unfold joinArms
  generalize htaken : (if g.isTrue then yes else no) = taken
  dsimp only
  split
  · refine .old ?_
    show taken.toDual ∈ _
    rw [← htaken]
    split
    · simp
    · simp
  · exact .after yes.toExpr_advances fun y => .after no.toExpr_advances fun z =>
      .fresh (Mint.ite_fresh e y z) fun _ => rfl

namespace Loop

theorem foldIterations_renews (current : Slot) (states : List (Tracked × Slot)) :
    (foldIterations current states).Renews (·.toDual) (current.toDual :: states.map (·.2.toDual)) := by
  induction states with
  | nil => exact .old (List.mem_singleton_self _)
  | cons p rest ih =>
    obtain ⟨g, before⟩ := p
    refine .bind (·.toDual) (ih.mono fun d hd => ?_) fun after => ?_
    · rw [List.map_cons]
      rcases List.mem_cons.1 hd with rfl | hd
      · exact List.mem_cons_self
      · exact List.mem_cons_of_mem _ (List.mem_cons_of_mem _ hd)
    · split
      · exact .old List.mem_cons_self
      · exact .after g.toExpr_advances fun c => .after after.toExpr_advances fun y =>
          .after before.toExpr_advances fun z => .fresh (Mint.ite_fresh c y z) fun _ => rfl

end Loop

end Symex
