import Symex.Proofs.SessionRuns
import Symex.Proofs.Stamps

/-!
What steps of a session leave alone. Evaluating a form, and every step that is not there to write, loses
names at most and hands out stamps (`Sheds`).
-/

namespace Symex

namespace Session

open Run (Leads)

/-- Names are lost at most, and stamps are handed out. -/
structure Sheds (s s' : Session) : Prop extends Kept s s' where
  next_le : s.next ≤ s'.next

theorem Sheds.refl (s : Session) : Sheds s s := ⟨.refl s, Nat.le_refl _⟩

section
variable {α : Type} {s s₀ : Session} {I : Session → Prop} {Q : α → Session → Prop}

theorem Sheds.mint (h : Sheds s₀ s) {x : Mint α} (hx : x.Advances) :
    Sheds s₀ { s with next := (x s.next).2 } :=
  ⟨⟨h.values, h.vars, h.stores, h.scopes⟩, Nat.le_trans h.next_le (hx _)⟩

/-- Nodes are built, and the next stamp is the one after them. -/
theorem Run.Leads.mints {x : Mint α} (hI : I { s with next := (x s.next).2 })
    (hQ : Q (x s.next).1 { s with next := (x s.next).2 }) : (Session.mint x).Leads s I Q :=
  ⟨hI, fun _ h => Except.ok.inj h ▸ hQ⟩

theorem mint_sheds (h : Sheds s₀ s) {x : Mint α} (hx : x.Advances) :
    (Session.mint x).Leads s (Sheds s₀) fun _ _ => True :=
  .mints (h.mint hx) trivial

theorem Sheds.dropName (h : Sheds s₀ s) (kind : NameKind) (hkind : kind = .scope → False)
    (name : String) : Sheds s₀ ((Session.dropName kind name).run.run s).2 := by
  cases kind with
  | value =>
    refine ⟨⟨fun e he => ?_, h.vars, h.stores, h.scopes⟩, h.next_le⟩
    exact h.values e (List.mem_filter.1 he).1
  | expr => exact ⟨⟨h.values, h.vars, h.stores, h.scopes⟩, h.next_le⟩
  | draft => exact ⟨⟨h.values, h.vars, h.stores, h.scopes⟩, h.next_le⟩
  | scope => exact (hkind rfl).elim

end

/-! ### Forms -/

section
variable {s₀ : Session}

mutual
theorem evalExpr_sheds (e : ExprForm) {s : Session} (h : Sheds s₀ s) :
    (evalExpr e).Leads s (Sheds s₀) fun _ _ => True := by
  match e with
  | .any name ty => exact mint_sheds h (Mint.any_fresh name ty).advances
  | .lit value name => exact mint_sheds h (Mint.lit_fresh value name).advances
  | .cast ty e =>
    exact .bind (evalExpr_sheds e h) fun e _ _ h _ => mint_sheds h (Mint.cast_fresh ty e).advances
  | .unary op e =>
    exact .bind (evalExpr_sheds e h) fun e _ _ h _ => mint_sheds h (Mint.unary_fresh op e).advances
  | .ite c y n =>
    exact .bind (evalExpr_sheds c h) fun c _ _ h _ => .bind (evalExpr_sheds y h) fun y _ _ h _ =>
      .bind (evalExpr_sheds n h) fun n _ _ h _ => mint_sheds h (Mint.ite_fresh c y n).advances
  | .nary op ty es =>
    exact .bind (evalExprs_sheds es h) fun es _ _ h _ =>
      mint_sheds h (Mint.nary_fresh op ty es).advances
  | .ref name => exact .get (.need h fun _ _ => trivial)
  | .take name =>
    refine .bind (P := fun _ _ => True) (.get (.need h fun _ _ => trivial)) fun e s' _ h _ => ?_
    exact ⟨h.dropName .expr (fun hk => nomatch hk) name, fun _ _ => trivial⟩
  | .companionOf name =>
    refine .bind (P := fun _ _ => True) (.get (.need h fun _ _ => trivial)) fun v s' _ h _ => ?_
    exact .need h fun _ _ => trivial
theorem evalExprs_sheds (es : List ExprForm) {s : Session} (h : Sheds s₀ s) :
    (evalExprs es).Leads s (Sheds s₀) fun _ _ => True := by
  match es with
  | [] => exact .pure h trivial
  | e :: es =>
    exact .bind (evalExpr_sheds e h) fun _ _ _ h _ => .bind (evalExprs_sheds es h) fun _ _ _ h _ =>
      .pure h trivial
end

/-- Evaluation from a state in which only names have been lost. -/
def Evaluation (s₀ : Session) (v : ValueForm) : Prop :=
  ∀ (inFlight : List Expr) (s : Session), Sheds s₀ s →
    (evalValue inFlight v).Leads s (Sheds s₀) fun _ _ => True

section
variable {f : Tracked → Tracked → Ownership → Mint Tracked} {Q : Tracked → Session → Prop}
  (hf : ∀ a b own s, Sheds s₀ s → (mint (f a b own)).Leads s (Sheds s₀) Q)
  {l r v : ValueForm} (hl : Evaluation s₀ l) (hr : Evaluation s₀ r)
include hf hl hr

theorem operator_sheds
    (heval : ∀ inFlight, evalValue inFlight v = do
      let a ← evalValue inFlight l
      let b ← evalValue (a.companion.toList ++ inFlight) r
      mint (f a b (← ownership inFlight a b)))
    (inFlight : List Expr) {s : Session} (h : Sheds s₀ s) :
    (evalValue inFlight v).Leads s (Sheds s₀) Q := by
  rw [heval]
  refine .bind (hl _ s h) fun a s' _ h _ => .bind (hr _ s' h) fun b s' _ h _ => ?_
  refine .bind (P := fun _ _ => True) (.get (.pure h trivial)) fun own s' _ h _ => ?_
  exact hf a b own s' h

/-- Connectives look at the types of their operands first. -/
theorem connective_sheds
    (heval : ∀ inFlight, evalValue inFlight v = do
      let a ← evalValue inFlight l
      let b ← evalValue (a.companion.toList ++ inFlight) r
      mint (f (← needBool a) (← needBool b) (← ownership inFlight a b)))
    (inFlight : List Expr) {s : Session} (h : Sheds s₀ s) :
    (evalValue inFlight v).Leads s (Sheds s₀) Q := by
  rw [heval]
  refine .bind (hl _ s h) fun a s' _ h _ => .bind (hr _ s' h) fun b s' _ h _ => ?_
  refine .bind (needBool_leads h _) fun a s' _ h _ => .bind (needBool_leads h _) fun b s' _ h _ => ?_
  refine .bind (P := fun _ _ => True) (.get (.pure h trivial)) fun own s' _ h _ => ?_
  exact hf a b own s' h

end

theorem combine_sheds (op : Operator) (ty : Ty) (data : Scalar) (l r : Tracked) (own : Ownership)
    {s : Session} (h : Sheds s₀ s) :
    (mint (Tracked.combine op ty data l r own)).Leads s (Sheds s₀) fun _ _ => True :=
  mint_sheds h fun n => (Tracked.combine_renews l r own op ty data n).1

theorem evalValue_sheds (v : ValueForm) : Evaluation s₀ v := by
  induction v with
  | new data => exact fun _ s h => .pure h trivial
  | any name ty => exact fun _ s h => mint_sheds h fun n => (Tracked.any_renews name ty n).1
  | withExpr data e =>
    exact fun _ s h => .bind (evalExpr_sheds e h) fun _ _ _ h _ => .pure h trivial
  | copy name => exact fun _ s h => .get (.need h fun _ _ => trivial)
  | take name =>
    refine fun _ s h => .bind (value_leads h name) fun w s _ h _ => ?_
    exact ⟨h.dropName .value (fun hk => nomatch hk) name, fun _ _ => trivial⟩
  | get x store =>
    refine fun _ s h => .bind (var_leads h x) fun y s _ h _ => ?_
    exact .bind (store_leads h store) fun st s _ h _ => .lift h fun _ _ => trivial
  | add l r hl hr =>
    exact fun _ s => operator_sheds (fun a b own s => combine_sheds _ _ _ a b own) hl hr (fun _ => rfl) _
  | lt l r hl hr =>
    exact fun _ s => operator_sheds (fun a b own s => combine_sheds _ _ _ a b own) hl hr (fun _ => rfl) _
  | equals l r hl hr =>
    exact fun _ s => operator_sheds (fun a b own s => combine_sheds _ _ _ a b own) hl hr (fun _ => rfl) _
  | and l r hl hr =>
    exact fun _ s => connective_sheds (fun a b own s => combine_sheds _ _ _ a b own) hl hr (fun _ => rfl) _
  | or l r hl hr =>
    exact fun _ s => connective_sheds (fun a b own s => combine_sheds _ _ _ a b own) hl hr (fun _ => rfl) _
  | not v hv =>
    refine fun inFlight s h => .bind (hv inFlight s h) fun w s _ h _ => ?_
    exact .bind (needBool_leads h _) fun w s _ h _ => mint_sheds h fun n => (w.not_renews n).1
  | cast ty v hv =>
    refine fun inFlight s h => .bind (hv inFlight s h) fun w s _ h _ => ?_
    exact mint_sheds h fun n => (w.cast_renews ty n).1

theorem evalGuard_sheds (inFlight : List Expr) (v : ValueForm) {s : Session} (h : Sheds s₀ s) :
    (evalGuard inFlight v).Leads s (Sheds s₀) fun _ _ => True := by
  refine .bind (evalValue_sheds v inFlight s h) fun w s _ h _ => ?_
  exact (needBool_leads h _).mono (fun _ h => h) fun _ _ _ _ => trivial

end

/-! ### Steps that do not write -/

/-- Whether a step can write a value, a store or a scope. -/
def Step.writes : Step → Bool
  | .bind _ _ | .symbolize _ _ | .assign _ _ | .drop _ _ | .newStore | .cloneStore _ | .declare _ _ _
  | .set _ _ _ | .openIf _ _ | .beginThen _ _ | .beginElse _ _ | .finish _ _ | .openLoop _ _
  | .unwind _ _ _ | .track _ _ | .cond _ _ _ _ _ | .loop _ _ _ _ => true
  | _ => false

section
variable {s₀ s : Session} (h : Sheds s₀ s)
include h

theorem Sheds.setExpr (name : String) (e : Expr) :
    Sheds s₀ { s with exprs := s.exprs.insert name e } :=
  ⟨⟨h.values, h.vars, h.stores, h.scopes⟩, h.next_le⟩

theorem Sheds.setDraft (name : String) (b : Draft) :
    Sheds s₀ { s with drafts := s.drafts.insert name b } :=
  ⟨⟨h.values, h.vars, h.stores, h.scopes⟩, h.next_le⟩

theorem Sheds.setPath (p : Path) : Sheds s₀ { s with path := p } :=
  ⟨⟨h.values, h.vars, h.stores, h.scopes⟩, h.next_le⟩

/-- **A step that does not write loses names at most.** -/
theorem runStep_sheds (inFlight : List Expr) {step : Step} (hstep : step.writes = false) :
    (runStep inFlight step).Leads s (Sheds s₀) fun _ _ => True := by
  have hval : ∀ inFlight v, (evalValue inFlight v).Leads s (Sheds s₀) fun _ _ => True :=
    fun inFlight v => evalValue_sheds v inFlight s h
  cases step with
  | eval v => exact .bind (hval _ v) fun _ _ _ h _ => .pure h trivial
  | inspect name => exact .bind (value_leads h name) fun _ _ _ h _ => .pure h trivial
  | same a b =>
    refine .bind (hval _ a) fun a s _ h _ => .bind (evalValue_sheds b _ s h) fun b s _ h _ => ?_
    split
    · exact .pure h trivial
    · exact .pure h trivial
  | encode v models =>
    refine .bind (hval _ v) fun v s _ h _ => ?_
    split
    · exact .pure h trivial
    · exact .bind (P := fun _ _ => True) (.lift h fun _ _ => trivial) fun _ _ _ h _ => .pure h trivial
  | expr name e =>
    exact .bind (evalExpr_sheds e h) fun e s _ h _ => .modify (.pure (h.setExpr name e) trivial)
  | draft name op ty => exact .modify (.pure (h.setDraft name ⟨op, ty, []⟩) trivial)
  | append name e =>
    refine .bind (evalExpr_sheds e h) fun e s _ h _ => ?_
    refine .bind (P := fun _ _ => True) (.get (.need h fun _ _ => trivial)) fun b s _ h _ => ?_
    exact .modify (.pure (h.setDraft name (b.append e)) trivial)
  | prepend name e =>
    refine .bind (evalExpr_sheds e h) fun e s _ h _ => ?_
    refine .bind (P := fun _ _ => True) (.get (.need h fun _ _ => trivial)) fun b s _ h _ => ?_
    exact .modify (.pure (h.setDraft name (b.prepend e)) trivial)
  | inspectDraft name =>
    exact .bind (P := fun _ _ => True) (.get (.need h fun _ _ => trivial)) fun _ _ _ h _ =>
      .pure h trivial
  | close name target =>
    refine .bind (P := fun _ _ => True) (.get (.need h fun _ _ => trivial)) fun b s _ h _ => ?_
    refine .bind (P := fun _ _ => True) ⟨h.dropName .draft (fun hk => nomatch hk) name,
      fun _ _ => trivial⟩ fun _ s _ h _ => ?_
    refine .bind (mint_sheds h b.close_fresh.advances) fun e s _ h _ => ?_
    exact .modify (.pure (h.setExpr target e) trivial)
  | reopen name op target =>
    refine .bind (P := fun _ _ => True) (.get (.need h fun _ _ => trivial)) fun e s _ h _ => ?_
    refine .bind (P := fun _ _ => True) ⟨h.dropName .expr (fun hk => nomatch hk) name,
      fun _ _ => trivial⟩ fun _ s _ h _ => .get ?_
    split
    · next b _ => exact .modify (.pure (h.setDraft target b) trivial)
    · exact .modify (.pure (h.setExpr name e) trivial)
  | sameExpr a b =>
    exact .bind (evalExpr_sheds a h) fun _ _ _ h _ => .bind (evalExpr_sheds b h) fun _ _ _ h _ =>
      .pure h trivial
  | encodeExpr e models =>
    refine .bind (evalExpr_sheds e h) fun _ _ _ h _ => ?_
    exact .bind (P := fun _ _ => True) (.lift h fun _ _ => trivial) fun _ _ _ h _ => .pure h trivial
  | storeInfo index => exact .bind (store_leads h index) fun _ _ _ h _ => .pure h trivial
  | get x index =>
    refine .bind (var_leads h x) fun _ _ _ h _ => .bind (store_leads h index) fun _ _ _ h _ => ?_
    exact .bind (P := fun _ _ => True) (.lift h fun _ _ => trivial) fun _ _ _ h _ => .pure h trivial
  | dump index => exact .bind (store_leads h index) fun _ _ _ h _ => .get (.pure h trivial)
  | askBound bound guard calls =>
    exact .bind (evalGuard_sheds inFlight guard h) fun _ _ _ h _ => .pure h trivial
  | branch v =>
    refine .bind (evalGuard_sheds inFlight v h) fun g s _ h _ => .get ?_
    refine .bind (mint_sheds h (s.path.branch_advances g)) fun r s _ h _ => ?_
    exact .modify (.pure (h.setPath r.2) trivial)
  | resetPath => exact .modify (.get (.pure (h.setPath s.path.reset) trivial))
  | path => exact .get (.pure h trivial)
  | encodePath declared models => exact .get (.pure h trivial)
  | _ => cases hstep

end

end Session

end Symex
