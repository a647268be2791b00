import Symex.Proofs.SessionFrames

/-!
Steps that spare a scope. A step names the scopes it works on, and whole conditionals and loops name those in
their arms and bodies. A scope that a step does not name is after the step what it was before, also if the
step is refused on the way.
-/

namespace Symex

theorem Table.find?_erase_of_ne {κ ν : Type} [Ord κ] [Std.LawfulEqOrd κ] {i k : κ} (h : k ≠ i)
    (t : Table κ ν) : (t.erase k).find? i = t.find? i := by
  induction t with
  | nil => rfl
  | cons e t ih =>
    unfold erase at ih ⊢
    by_cases hk : compare k e.1 = .eq
    · have hi : ¬compare i e.1 = .eq := by
        intro hi
        exact h ((Std.LawfulEqCmp.eq_of_compare hk).trans (Std.LawfulEqCmp.eq_of_compare hi).symm)
      rw [List.filter_cons_of_neg (by simp [hk]), find?, if_neg hi]
      exact ih
    · rw [List.filter_cons_of_pos (by simpa using hk), find?, find?, ih]

namespace Session

open Run (Leads)

mutual
/-- Whether a step has nothing to do with the scope of a name. -/
def Step.spares (name : String) : Step → Bool
  | .openIf scope _ | .beginThen scope _ | .beginElse scope _ | .finish scope _ | .openLoop scope _
  | .unwind scope _ _ | .track scope _ | .drop .scope scope => scope ≠ name
  | .cond _ _ yes none _ => allSpare name yes
  | .cond _ _ yes (some no) _ => allSpare name yes && allSpare name no
  | .loop scope _ body _ => scope ≠ name && allSpare name body
  | _ => true
def Step.allSpare (name : String) : List Step → Bool
  | [] => true
  | step :: rest => step.spares name && allSpare name rest
end

/-- What a name is bound to as a scope. -/
def Bound (name : String) (sc : Option Scope) (s : Session) : Prop := s.scopes.find? name = sc

section
variable {name : String} {sc : Option Scope} {s s' : Session} (h : Bound name sc s)
include h

theorem Bound.of_scopes_eq (heq : s'.scopes = s.scopes) : Bound name sc s' := by
  unfold Bound
  rw [heq]
  exact h

theorem Bound.setScope {scope : String} (hne : scope ≠ name) (sc' : Scope) :
    Bound name sc { s with scopes := s.scopes.put scope sc' } := by
  have hcmp : compare name scope ≠ .eq := fun heq => hne (Std.LawfulEqCmp.eq_of_compare heq).symm
  exact (Table.find?_put_of_ne hcmp sc' s.scopes).trans h

theorem Bound.dropScope {scope : String} (hne : scope ≠ name) :
    Bound name sc { s with scopes := s.scopes.erase scope } :=
  (Table.find?_erase_of_ne hne s.scopes).trans h

theorem Bound.sheds {α : Type} {x : Run α} {Q : α → Session → Prop} (hx : x.Leads s (Sheds s) Q) :
    x.Leads s (Bound name sc) Q :=
  hx.mono (fun _ hk => h.of_scopes_eq hk.scopes) fun _ _ _ hq => hq

theorem Bound.evalValue (inFlight : List Expr) (v : ValueForm) :
    (evalValue inFlight v).Leads s (Bound name sc) fun _ _ => True :=
  h.sheds (evalValue_sheds v inFlight s (.refl s))

theorem Bound.evalGuard (inFlight : List Expr) (v : ValueForm) :
    (evalGuard inFlight v).Leads s (Bound name sc) fun _ _ => True :=
  h.sheds (evalGuard_sheds inFlight v (.refl s))

theorem Bound.mint {α : Type} (x : Mint α) : (mint x).Leads s (Bound name sc) fun _ _ => True :=
  .mint (fun _ => h.of_scopes_eq rfl) fun _ => trivial

theorem Bound.build {α : Type} (x : Build α) : (build x).Leads s (Bound name sc) fun _ _ => True :=
  .build (fun _ => h.of_scopes_eq rfl) fun _ _ _ => trivial

theorem Bound.lift {α : Type} (x : Except Error α) : (lift x).Leads s (Bound name sc) fun _ _ => True :=
  .lift h fun _ _ => trivial

theorem unwindOnce_spares (inFlight : List Expr) {scope : String} (hne : scope ≠ name) (guard : ValueForm)
    (k : Nat) : (unwindOnce inFlight scope guard k).Leads s (Bound name sc) fun _ _ => True := by
  refine .bind (h.evalGuard inFlight guard) fun g s _ h _ => ?_
  refine .bind (namedLoop_leads h scope) fun l s _ h _ => ?_
  refine .bind (store_leads h k) fun st s _ h _ => .bind (h.mint _) fun r s _ h _ => ?_
  have hset := h.setScope hne (.loop r.2.1)
  refine .modify (.modify (.bind (P := fun _ _ => True) (.lift ?_ fun _ _ => trivial) ?_))
  · exact hset.of_scopes_eq rfl
  · exact fun _ _ _ h _ => .pure h trivial

/-- The end of a conditional without a name. -/
theorem finishOn_spares (c : Conditional) (k : Nat) (answer : Answer) :
    (do
      Session.lift (← finishOn c k).1
      return answer).Leads s (Bound name sc) fun _ _ => True :=
  finishOn_leads h (fun _ => .throw h) fun _ _ _ _ _ _ => .pure (h.of_scopes_eq rfl) trivial

/-- The beginning of a conditional without a name. -/
theorem beginNew_spares (inFlight : List Expr) (guard : ValueForm) (track : List String) (k : Nat) :
    (beginNew inFlight guard track k).Leads s (Bound name sc) fun _ _ => True := by
  refine .bind (h.evalGuard inFlight guard) fun g s _ h _ => .bind (vars_leads h track) fun vs s _ h _ => ?_
  refine .bind (h.lift _) fun c s _ h _ => .bind (store_leads h k) fun st s _ h _ => ?_
  exact .bind (h.lift _) fun _ _ _ h _ => .pure h trivial

end

section
variable {name : String} {sc : Option Scope}

mutual
/-- **A step leaves the scopes it spares.** -/
theorem runStep_spares (inFlight : List Expr) {step : Step} (hstep : step.spares name = true) {s : Session}
    (h : Bound name sc s) : (runStep inFlight step).Leads s (Bound name sc) fun _ _ => True := by
  cases step with
  | bind x v =>
    refine .bind (h.evalValue inFlight v) fun w s _ h _ => ?_
    exact .modify (.pure (h.of_scopes_eq rfl) trivial)
  | symbolize x symbol =>
    refine .bind (value_leads h x) fun v s _ h _ => .bind (h.mint _) fun w s _ h _ => ?_
    exact .modify (.pure (h.of_scopes_eq rfl) trivial)
  | assign x v =>
    refine .bind (h.evalValue inFlight v) fun w s _ h _ => .bind (value_leads h x) fun d s _ h _ => ?_
    refine .bind (h.mint _) fun w s _ h _ => ?_
    exact .modify (.pure (h.of_scopes_eq rfl) trivial)
  | drop kind x =>
    refine .bind (P := fun _ _ => True) ⟨?_, fun _ _ => trivial⟩ fun _ _ _ h _ => .pure h trivial
    cases kind with
    | scope => exact h.dropScope (of_decide_eq_true hstep)
    | value | expr | draft => exact h.of_scopes_eq rfl
  | newStore => exact .get (.modify (.pure (h.of_scopes_eq rfl) trivial))
  | cloneStore k =>
    refine .bind (store_leads h k) fun st s _ h _ => ?_
    exact .get (.modify (.pure (h.of_scopes_eq rfl) trivial))
  | declare x v k =>
    refine .bind (h.evalValue inFlight v) fun w s _ h _ => .bind (store_leads h k) fun st s _ h _ => ?_
    exact .modify (.modify (.pure (h.of_scopes_eq rfl) trivial))
  | set x v k =>
    refine .bind (h.evalValue inFlight v) fun w s _ h _ => .bind (var_leads h x) fun y s _ h _ => ?_
    refine .bind (store_leads h k) fun st s _ h _ => .bind (h.build _) fun st' s _ h _ => ?_
    refine .modify (.bind (P := fun _ _ => True) (.lift (h.of_scopes_eq rfl) fun _ _ => trivial) ?_)
    exact fun _ _ _ h _ => .pure h trivial
  | openIf scope guard =>
    refine .bind (h.evalGuard inFlight guard) fun g s _ h _ => ?_
    exact .modify (.pure (h.setScope (of_decide_eq_true hstep) _) trivial)
  | beginThen scope k =>
    exact beginThen_leads h fun _ _ _ _ _ _ _ => ⟨h.setScope (of_decide_eq_true hstep) _, trivial⟩
  | beginElse scope k =>
    refine beginElse_leads h fun c st b c' st' _ _ _ => ⟨?_, trivial⟩
    exact (h.setScope (of_decide_eq_true hstep) (.conditional c')).of_scopes_eq rfl
  | finish scope k =>
    refine finish_leads h fun c st c' st' n _ _ _ => ?_
    exact (h.setScope (of_decide_eq_true hstep) (.conditional c')).of_scopes_eq rfl
  | openLoop scope policy => exact .get (.modify (.pure (h.setScope (of_decide_eq_true hstep) _) trivial))
  | unwind scope guard k =>
    refine .bind (unwindOnce_spares h inFlight (of_decide_eq_true hstep) guard k) fun _ _ _ h _ => ?_
    exact .pure h trivial
  | track scope x =>
    have hne := of_decide_eq_true hstep
    exact track_leads h (fun _ _ _ _ _ => h.setScope hne _) fun _ _ _ _ _ => h.setScope hne _
  | cond guard track yes no k =>
    cases no with
    | none =>
      refine .bind (beginNew_spares h inFlight guard track k) fun r s _ h _ => ?_
      refine arm_leads r.1 (fun _ => runSteps_spares _ hstep h) (fun first s h => ?_) h
      exact finishOn_spares h r.2 k _
    | some no =>
      obtain ⟨hyes, hno⟩ := Bool.and_eq_true_iff.1 hstep
      refine .bind (beginNew_spares h inFlight guard track k) fun r s _ h _ => ?_
      refine arm_leads r.1 (fun _ => runSteps_spares _ hyes h) (fun first s h => ?_) h
      refine beginElseOn_leads h (fun _ => .throw h) fun st b c st' _ _ => ?_
      have hset : Bound name sc { s with stores := s.stores.set k st' } := h.of_scopes_eq rfl
      refine arm_leads b (fun _ => runSteps_spares _ hno hset) (fun second s h => ?_) hset
      exact finishOn_spares h c k _
  | loop scope guard body k =>
    obtain ⟨hscope, hbody⟩ := Bool.and_eq_true_iff.1 hstep
    refine .bind (rounds_leads (fun h => ?_) (fun h => runSteps_spares inFlight hbody h) _ _ h) ?_
    · refine .bind (unwindOnce_spares h inFlight (of_decide_eq_true hscope) guard k) fun _ _ _ h _ => ?_
      exact .pure h trivial
    · exact fun _ _ _ h _ => .pure h trivial
  | _ => exact h.sheds (runStep_sheds (.refl s) inFlight rfl)
theorem runSteps_spares (inFlight : List Expr) {steps : List Step} (hsteps : Step.allSpare name steps = true)
    {s : Session} (h : Bound name sc s) :
    (runSteps inFlight steps).Leads s (Bound name sc) fun _ _ => True := by
  match steps with
  | [] => exact .pure h trivial
  | step :: rest =>
    obtain ⟨hstep, hrest⟩ := Bool.and_eq_true_iff.1 hsteps
    refine .bind (settle_leads (runStep_spares inFlight hstep h)) fun a s _ h _ => ?_
    exact .bind (runSteps_spares inFlight hrest h) fun _ s _ h _ => .pure h trivial
end

end

end Session

end Symex
