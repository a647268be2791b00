import Symex.Proofs.FailedCalls
import Symex.Session.Run

/-!
Runs of a session. A run is a list of steps; what holds at first and is kept by every step that
satisfies a condition holds at the end. Computations are followed by what they lead to (`Leads`),
whether or not they are refused. Evaluating a form loses names at most (`Kept`), and its value has every
property that leaves and operators carry (`Carries`).
-/

namespace Symex

namespace Session

/-! ### Runs -/

/-- The state after a step, also after one that is refused. -/
def after (s : Session) (step : Step) : Session := ((runStep [] step).run.run s).2

/-- The state after some steps. -/
def afterAll (s : Session) (steps : List Step) : Session := ((runSteps [] steps).run.run s).2

/-- Whether a condition holds at every step, in the state that the step finds. -/
def along (ok : Session → Step → Bool) : Session → List Step → Bool
  | _, [] => true
  | s, step :: steps => ok s step && along ok (s.after step) steps

/-- The steps of a run with their results. -/
def trace (s : Session) : List Step → List (Step × Except Refusal Answer)
  | [] => []
  | step :: steps => (step, ((runStep [] step).run.run s).1) :: trace (s.after step) steps

/-- The answer that a result is; where there is none it is a refusal. -/
def answerOf : Except Refusal Answer → Answer
  | .ok a => a
  | .error r => .refused r

namespace Run

section
variable {α β : Type}

theorem run_bind (x : Run α) (f : α → Run β) (s : Session) :
    (x >>= f).run.run s = match x.run.run s with
      | (.ok a, s') => (f a).run.run s'
      | (.error r, s') => (.error r, s') := by
  show ExceptT.bindCont f (x.run.run s).1 (x.run.run s).2 = _
  rcases x.run.run s with ⟨_ | _, _⟩ <;> rfl

/-- A settled computation has the answer that its result is, and the state it had. -/
theorem run_settle_eq (x : Run Answer) (s : Session) :
    (settle x).run.run s = (.ok (answerOf (x.run.run s).1), (x.run.run s).2) := by
  unfold settle
  simp only [tryCatch, tryCatchThe, MonadExceptOf.tryCatch, ExceptT.tryCatch, ExceptT.run, ExceptT.mk,
    StateT.run_bind]
  generalize StateT.run x s = p
  rcases p with ⟨r | a, s'⟩
  · rfl
  · rfl

theorem run_settle (x : Run Answer) (s : Session) :
    ∃ a, (settle x).run.run s = (.ok a, (x.run.run s).2) := ⟨_, run_settle_eq x s⟩

theorem run_store {s : Session} {index : Nat} {st : Store} (hst : s.stores[index]? = some st) :
    (store index).run.run s = (.ok st, s) := by
  show (need "store" s.stores[index]?).run.run s = _
  rw [hst]
  rfl

theorem run_conditional {s : Session} {name : String} {c : Conditional}
    (hc : s.scopes.find? name = some (.conditional c)) : (conditional name).run.run s = (.ok c, s) := by
  show (need name (s.scopes.find? name) >>= _).run.run s = _
  rw [hc]
  rfl

theorem run_bind_ok {x : Run α} {a : α} {s s' : Session} (h : x.run.run s = (.ok a, s')) (f : α → Run β) :
    (x >>= f).run.run s = (f a).run.run s' := by
  rw [run_bind, h]

end

end Run

theorem afterAll_cons (s : Session) (step : Step) (steps : List Step) :
    s.afterAll (step :: steps) = (s.after step).afterAll steps := by
  obtain ⟨a, ha⟩ := Run.run_settle (runStep [] step) s
  unfold afterAll
  rw [runSteps, Run.run_bind, ha]
  show ((runSteps [] steps >>= fun as => pure (a :: as)).run.run (s.after step)).2 = _
  rw [Run.run_bind]
  rcases (runSteps [] steps).run.run (s.after step) with ⟨_ | _, _⟩ <;> rfl

/-- A run answers what its steps result in. -/
theorem runSteps_eq_trace (s : Session) (steps : List Step) :
    (runSteps [] steps).run.run s = (.ok ((s.trace steps).map fun p => answerOf p.2), s.afterAll steps) := by
  induction steps generalizing s with
  | nil => rfl
  | cons step steps ih =>
    rw [afterAll_cons, runSteps, Run.run_bind_ok (Run.run_settle_eq _ _)]
    show (runSteps [] steps >>= fun as => pure (_ :: as)).run.run (s.after step) = _
    rw [Run.run_bind_ok (ih _)]
    rfl

theorem along_append {ok : Session → Step → Bool} (s : Session) (before steps : List Step) :
    along ok s (before ++ steps) = (along ok s before && along ok (s.afterAll before) steps) := by
  induction before generalizing s with
  | nil => rfl
  | cons step before ih => rw [List.cons_append, along, along, ih, afterAll_cons, Bool.and_assoc]

/-- **What every step keeps holds after all of them.** -/
theorem invariant_afterAll {I : Session → Prop} {ok : Session → Step → Bool}
    (hstep : ∀ s step, I s → ok s step = true → I (s.after step)) {s : Session} (hs : I s)
    {steps : List Step} (h : along ok s steps = true) : I (s.afterAll steps) := by
  induction steps generalizing s with
  | nil => exact hs
  | cons step steps ih =>
    obtain ⟨hok, hrest⟩ : ok s step = true ∧ along ok (s.after step) steps = true := by
      simpa [along] using h
    rw [afterAll_cons]
    exact ih (hstep s step hs hok) hrest

/-! ### What computations lead to -/

namespace Run

/-- From a state, a computation comes to a state with a property; where it has a result, the result
and the state have another one. -/
def Leads {α : Type} (x : Run α) (s : Session) (I : Session → Prop) (Q : α → Session → Prop) : Prop :=
  I (x.run.run s).2 ∧ ∀ a, (x.run.run s).1 = .ok a → Q a (x.run.run s).2

section
variable {α β : Type} {s : Session} {I J : Session → Prop} {P Q : α → Session → Prop}
  {T : β → Session → Prop}

theorem Leads.pure {a : α} (hI : I s) (hQ : Q a s) : Leads (Pure.pure a) s I Q :=
  ⟨hI, fun _ h => Except.ok.inj h ▸ hQ⟩

theorem Leads.throw {r : Refusal} (hI : I s) : Leads (throw r : Run α) s I Q :=
  ⟨hI, fun _ h => nomatch h⟩

theorem Leads.bind {x : Run α} {f : α → Run β} (hx : x.Leads s I P)
    (hf : ∀ a s', x.run.run s = (.ok a, s') → I s' → P a s' → (f a).Leads s' I T) :
    Leads (x >>= f) s I T := by
  unfold Leads at hx ⊢
  rw [run_bind]
  cases hr : x.run.run s with
  | mk r s' =>
    rw [hr] at hx
    cases r with
    | error e => exact ⟨hx.1, fun _ h => nomatch h⟩
    | ok a => exact hf a s' hr hx.1 (hx.2 a rfl)

theorem Leads.mono {x : Run α} (hx : x.Leads s I P) (hI : ∀ s', I s' → J s')
    (hQ : ∀ a s', I s' → P a s' → Q a s') : x.Leads s J Q :=
  ⟨hI _ hx.1, fun a h => hQ a _ hx.1 (hx.2 a h)⟩

/-- The state is read. -/
theorem Leads.get {f : Session → Run α} (h : (f s).Leads s I Q) : Leads (MonadState.get >>= f) s I Q := h

theorem Leads.modify {g : Session → Session} {f : Unit → Run α} (h : (f ()).Leads (g s) I Q) :
    Leads (modify g >>= f) s I Q := h

theorem Leads.need {what : String} {o : Option α} (hI : I s) (hQ : ∀ a, o = some a → Q a s) :
    (need what o).Leads s I Q := by
  cases o with
  | none => exact .throw hI
  | some a => exact .pure hI (hQ a rfl)

theorem Leads.lift {x : Except Error α} (hI : I s) (hQ : ∀ a, x = .ok a → Q a s) :
    (lift x).Leads s I Q := by
  cases x with
  | error e => exact .throw hI
  | ok a => exact .pure hI (hQ a rfl)

theorem Leads.mint {x : Mint α} (hI : ∀ n, I { s with next := n })
    (hQ : ∀ n, Q (x s.next).1 { s with next := n }) : (mint x).Leads s I Q :=
  ⟨hI _, fun _ h => Except.ok.inj h ▸ hQ _⟩

theorem Leads.build {x : Build α} (hI : ∀ n, I { s with next := n })
    (hQ : ∀ a n, x s.next = .ok (a, n) → Q a { s with next := n }) : (build x).Leads s I Q := by
  refine .get ?_
  split
  · exact .throw (hI s.next)
  · next a n hx => exact ⟨hI n, fun _ h => Except.ok.inj h ▸ hQ a n hx⟩

end

end Run

section
variable {I : Session → Prop} {s : Session} (hI : I s)
include hI

theorem value_leads (name : String) :
    (value name).Leads s I fun v s' => s' = s ∧ s.values.find? name = some v :=
  .get (.need hI fun _ hv => ⟨rfl, hv⟩)

theorem var_leads (name : String) :
    (var name).Leads s I fun x s' => s' = s ∧ s.vars.find? name = some x :=
  .get (.need hI fun _ hx => ⟨rfl, hx⟩)

theorem store_leads (index : Nat) :
    (store index).Leads s I fun st s' => s' = s ∧ s.stores[index]? = some st :=
  .get (.need hI fun _ hst => ⟨rfl, hst⟩)

theorem scope_leads {α : Type} {f : Scope → Run α} {Q : α → Session → Prop} (name : String)
    (hf : ∀ sc, s.scopes.find? name = some sc → (f sc).Leads s I Q) :
    (do f (← need name ((← get).scopes.find? name))).Leads s I Q := by
  refine .get (.bind (P := fun sc s' => s' = s ∧ s.scopes.find? name = some sc)
    (.need hI fun _ hsc => ⟨rfl, hsc⟩) ?_)
  rintro sc s' - - ⟨rfl, hsc⟩
  exact hf sc hsc

theorem lift_leads {α : Type} (x : Except Error α) : (lift x).Leads s I fun a s' => s' = s ∧ x = .ok a :=
  .lift hI fun _ ha => ⟨rfl, ha⟩

theorem conditional_leads (name : String) : (conditional name).Leads s I fun c s' =>
    s' = s ∧ s.scopes.find? name = some (.conditional c) := by
  refine scope_leads hI name fun sc hsc => ?_
  cases sc with
  | conditional c => exact .pure hI ⟨rfl, hsc⟩
  | loop l => exact .throw hI

theorem namedLoop_leads (name : String) : (namedLoop name).Leads s I fun l s' =>
    s' = s ∧ s.scopes.find? name = some (.loop l) := by
  refine scope_leads hI name fun sc hsc => ?_
  cases sc with
  | conditional c => exact .throw hI
  | loop l => exact .pure hI ⟨rfl, hsc⟩

theorem needBool_leads (v : Tracked) : (needBool v).Leads s I fun w _ => w = v ∧ v.ty = .bool := by
  unfold needBool
  split
  · next hty => exact .pure hI ⟨rfl, hty⟩
  · exact .throw hI

theorem vars_leads (track : List String) : (track.mapM var).Leads s I fun _ s' => s' = s := by
  induction track with
  | nil => exact .pure hI rfl
  | cons x track ih =>
    rw [List.mapM_cons]
    refine .bind (var_leads hI x) ?_
    rintro y s' - - ⟨rfl, -⟩
    refine .bind ih ?_
    rintro ys s'' - - rfl
    exact .pure hI rfl

end

/-! ### Calls on conditionals

A call that fails leaves the session as it was, though scope and store are written back. -/

theorem setStore_of_getElem? {s : Session} {k : Nat} {st : Store} (h : s.stores[k]? = some st) :
    { s with stores := s.stores.set k st } = s := by
  obtain ⟨hk, rfl⟩ := List.getElem?_eq_some_iff.1 h
  rw [List.set_getElem_self]

theorem setScope_of_find? {s : Session} {name : String} {sc : Scope} (h : s.scopes.find? name = some sc) :
    { s with scopes := s.scopes.put name sc } = s := by
  rw [Table.put_of_find? h]

section
variable {α : Type} {I : Session → Prop} {Q : α → Session → Prop} {T : Answer → Session → Prop}
  {s : Session} {inFlight : List Expr} {scope : String} {k : Nat} {c : Conditional} (hI : I s)
include hI

theorem beginElseOn_leads {f : Except Error Bool × Conditional → Run α}
    (hfailed : ∀ e, (f (.error e, c)).Leads s I Q)
    (hok : ∀ st b c' st', s.stores[k]? = some st → c.beginElse st = (.ok b, c', st') →
      (f (.ok b, c')).Leads { s with stores := s.stores.set k st' } I Q) :
    (beginElseOn c k >>= f).Leads s I Q := by
  rw [beginElseOn, bind_assoc]
  refine .bind (store_leads hI k) ?_
  rintro st s - - ⟨rfl, hst⟩
  rcases c.beginElse_cases st with ⟨e, hrun⟩ | ⟨-, -, hrun⟩
  · rw [hrun]
    show (f (.error e, c)).Leads { s with stores := s.stores.set k st } I Q
    rw [setStore_of_getElem? hst]
    exact hfailed e
  · have hnext := hok st _ _ _ hst hrun
    rw [hrun]
    exact hnext

theorem finishOn_leads {f : Except Error Unit × Conditional → Run α}
    (hfailed : ∀ e, (f (.error e, c)).Leads s I Q)
    (hok : ∀ st c' st' n, s.stores[k]? = some st → c.finish st s.next = ((.ok (), c', st'), n) →
      (f (.ok (), c')).Leads { s with next := n, stores := s.stores.set k st' } I Q) :
    (finishOn c k >>= f).Leads s I Q := by
  rw [finishOn, bind_assoc]
  refine .bind (store_leads hI k) ?_
  rintro st s - - ⟨rfl, hst⟩
  show (f ((c.finish st s.next).1.1, (c.finish st s.next).1.2.1)).Leads
    { s with next := (c.finish st s.next).2, stores := s.stores.set k (c.finish st s.next).1.2.2 } I Q
  rcases c.finish_cases st s.next with ⟨e, hrun⟩ | ⟨yes, no, -, hrun⟩
  · rw [hrun]
    show (f (.error e, c)).Leads { s with stores := s.stores.set k st } I Q
    rw [setStore_of_getElem? hst]
    exact hfailed e
  · have hnext := hok st _ _ _ hst hrun
    rw [hrun]
    exact hnext

theorem beginThen_leads
    (h : ∀ c st b c', s.scopes.find? scope = some (.conditional c) → s.stores[k]? = some st →
      c.beginThen st = (.ok b, c') → I { s with scopes := s.scopes.put scope (.conditional c') } ∧
        T (.flag b) { s with scopes := s.scopes.put scope (.conditional c') }) :
    (runStep inFlight (.beginThen scope k)).Leads s I T := by
  refine .bind (conditional_leads hI scope) ?_
  rintro c s - - ⟨rfl, hc⟩
  refine .bind (store_leads hI k) ?_
  rintro st s - - ⟨rfl, hst⟩
  rcases c.beginThen_cases st with ⟨e, hrun⟩ | ⟨-, hrun⟩
  · rw [hrun]
    refine .modify ?_
    rw [setScope_of_find? hc]
    exact .throw hI
  · obtain ⟨hnext, hflag⟩ := h c st _ _ hc hst hrun
    rw [hrun]
    exact .modify (.pure hnext hflag)

theorem beginElse_leads
    (h : ∀ c st b c' st', s.scopes.find? scope = some (.conditional c) → s.stores[k]? = some st →
      c.beginElse st = (.ok b, c', st') →
      I { s with scopes := s.scopes.put scope (.conditional c'), stores := s.stores.set k st' } ∧
        T (.flag b) { s with scopes := s.scopes.put scope (.conditional c'), stores := s.stores.set k st' }) :
    (runStep inFlight (.beginElse scope k)).Leads s I T := by
  refine .bind (conditional_leads hI scope) ?_
  rintro c s - - ⟨rfl, hc⟩
  refine beginElseOn_leads hI (fun e => .modify ?_) fun st b c' st' hst hrun => .modify ?_
  · rw [setScope_of_find? hc]
    exact .throw hI
  · obtain ⟨hnext, hflag⟩ := h c st b c' st' hc hst hrun
    exact .pure hnext hflag

theorem finish_leads
    (h : ∀ c st c' st' n, s.scopes.find? scope = some (.conditional c) → s.stores[k]? = some st →
      c.finish st s.next = ((.ok (), c', st'), n) →
      I { s with next := n, scopes := s.scopes.put scope (.conditional c'), stores := s.stores.set k st' }) :
    (runStep inFlight (.finish scope k)).Leads s I fun _ _ => True := by
  refine .bind (conditional_leads hI scope) ?_
  rintro c s - - ⟨rfl, hc⟩
  refine finishOn_leads hI (fun e => .modify ?_) fun st c' st' n hst hrun => .modify ?_
  · rw [setScope_of_find? hc]
    exact .throw hI
  · exact .pure (h c st c' st' n hc hst hrun) trivial

theorem track_leads {x : String}
    (hcond : ∀ c y c', s.scopes.find? scope = some (.conditional c) → c.track y = (.ok (), c') →
      I { s with scopes := s.scopes.put scope (.conditional c') })
    (hloop : ∀ l y l', s.scopes.find? scope = some (.loop l) → l.track y = (.ok (), l') →
      I { s with scopes := s.scopes.put scope (.loop l') }) :
    (runStep inFlight (.track scope x)).Leads s I fun _ _ => True := by
  refine .bind (var_leads hI x) ?_
  rintro y s - - ⟨rfl, -⟩
  refine scope_leads hI scope fun sc hsc => ?_
  cases sc with
  | conditional c =>
    rcases c.track_cases y with ⟨e, hrun⟩ | ⟨-, hrun⟩
    · dsimp only
      rw [hrun]
      refine .modify ?_
      rw [setScope_of_find? hsc]
      exact .throw hI
    · have hnext := hcond c y _ hsc hrun
      dsimp only
      rw [hrun]
      exact .modify (.pure hnext trivial)
  | loop l =>
    rcases l.track_cases y with ⟨e, hrun⟩ | ⟨-, hrun⟩
    · dsimp only
      rw [hrun]
      refine .modify ?_
      rw [setScope_of_find? hsc]
      exact .throw hI
    · have hnext := hloop l y _ hsc hrun
      dsimp only
      rw [hrun]
      exact .modify (.pure hnext trivial)

end

/-! ### Computations inside others -/

section
variable {I : Session → Prop} {s : Session}

theorem settle_leads {x : Run Answer} (hx : x.Leads s I fun _ _ => True) :
    (settle x).Leads s I fun _ _ => True := by
  obtain ⟨a, ha⟩ := Run.run_settle x s
  refine ⟨?_, fun _ _ => trivial⟩
  rw [ha]
  exact hx.1

theorem rounds_leads {more : Run Bool} {body : Run (List Answer)}
    (hmore : ∀ {s}, I s → more.Leads s I fun _ _ => True)
    (hbody : ∀ {s}, I s → body.Leads s I fun _ _ => True) (n : Nat) (before : List (List Answer))
    (h : I s) : (rounds more body n before).Leads s I fun _ _ => True := by
  induction n generalizing s before with
  | zero => exact .throw h
  | succ n ih =>
    refine .bind (hmore h) fun b s _ h _ => ?_
    cases b with
    | true => exact .bind (hbody h) fun answers s _ h _ => ih _ h
    | false => exact .pure h trivial

/-- An arm runs if it can be taken, and what follows it runs anyway. -/
theorem arm_leads {α : Type} {Q : α → Session → Prop} (b : Bool) {x : Run (List Answer)}
    (hx : b = true → x.Leads s I fun _ _ => True) {f : Option (List Answer) → Run α}
    (hf : ∀ answers s, I s → (f answers).Leads s I Q) (h : I s) :
    (if b then do f (← some <$> x) else do f (← pure none)).Leads s I Q := by
  cases b with
  | true =>
    refine .bind (P := fun _ _ => True) ?_ fun answers s _ h _ => hf answers s h
    rw [map_eq_pure_bind]
    exact .bind (hx rfl) fun _ _ _ h _ => .pure h trivial
  | false => exact .bind (P := fun _ _ => True) (.pure h trivial) fun answers s _ h _ => hf answers s h

end

/-! ### Evaluating forms -/

/-- What evaluating a form leaves as it was. Names of values can be lost. -/
structure Kept (s s' : Session) : Prop where
  values : ∀ e ∈ s'.values, e ∈ s.values
  vars : s'.vars = s.vars
  stores : s'.stores = s.stores
  scopes : s'.scopes = s.scopes

theorem Kept.refl (s : Session) : Kept s s := ⟨fun _ he => he, rfl, rfl, rfl⟩

theorem Kept.next {s s' : Session} (h : Kept s s') (n : Nat) : Kept s { s' with next := n } :=
  ⟨h.values, h.vars, h.stores, h.scopes⟩

section
variable {s₀ : Session}

open Run (Leads)

mutual
theorem evalExpr_keeps (e : ExprForm) {s : Session} (h : Kept s₀ s) :
    (evalExpr e).Leads s (Kept s₀) fun _ _ => True := by
  match e with
  | .any name ty => exact .mint h.next fun _ => trivial
  | .lit value name => exact .mint h.next fun _ => trivial
  | .cast ty e => exact .bind (evalExpr_keeps e h) fun _ _ _ h _ => .mint h.next fun _ => trivial
  | .unary op e => exact .bind (evalExpr_keeps e h) fun _ _ _ h _ => .mint h.next fun _ => trivial
  | .ite c y n =>
    exact .bind (evalExpr_keeps c h) fun _ _ _ h _ => .bind (evalExpr_keeps y h) fun _ _ _ h _ =>
      .bind (evalExpr_keeps n h) fun _ _ _ h _ => .mint h.next fun _ => trivial
  | .nary op ty es => exact .bind (evalExprs_keeps es h) fun _ _ _ h _ => .mint h.next fun _ => trivial
  | .ref name => exact .get (.need h fun _ _ => trivial)
  | .take name =>
    refine .bind (P := fun _ _ => True) (.get (.need h fun _ _ => trivial)) fun e s' _ h _ => ?_
    exact ⟨⟨h.values, h.vars, h.stores, h.scopes⟩, fun _ _ => trivial⟩
  | .companionOf name =>
    refine .bind (P := fun _ _ => True) (.get (.need h fun _ _ => trivial)) fun v s' _ h _ => ?_
    exact .need h fun _ _ => trivial
theorem evalExprs_keeps (es : List ExprForm) {s : Session} (h : Kept s₀ s) :
    (evalExprs es).Leads s (Kept s₀) fun _ _ => True := by
  match es with
  | [] => exact .pure h trivial
  | e :: es =>
    exact .bind (evalExpr_keeps e h) fun _ _ _ h _ => .bind (evalExprs_keeps es h) fun _ _ _ h _ =>
      .pure h trivial
end

/-- A form and all forms in it. -/
def ValueForm.parts : ValueForm → List ValueForm
  | .add l r => .add l r :: (l.parts ++ r.parts)
  | .lt l r => .lt l r :: (l.parts ++ r.parts)
  | .equals l r => .equals l r :: (l.parts ++ r.parts)
  | .and l r => .and l r :: (l.parts ++ r.parts)
  | .or l r => .or l r :: (l.parts ++ r.parts)
  | .not v => .not v :: v.parts
  | .cast ty v => .cast ty v :: v.parts
  | v => [v]

/-- Parts of parts are parts. -/
theorem ValueForm.parts_trans {p q v : ValueForm} (hp : p ∈ v.parts) (hq : q ∈ p.parts) : q ∈ v.parts := by
  induction v with
  | new | any | withExpr | copy | take | get =>
    rw [List.mem_singleton.1 hp] at hq
    exact hq
  | add l r hl hr | lt l r hl hr | equals l r hl hr | and l r hl hr | or l r hl hr =>
    rcases List.mem_cons.1 hp with rfl | hp
    · exact hq
    · refine List.mem_cons_of_mem _ (List.mem_append.2 ?_)
      exact (List.mem_append.1 hp).imp hl hr
  | not v hv | cast ty v hv =>
    rcases List.mem_cons.1 hp with rfl | hp
    · exact hq
    · exact List.mem_cons_of_mem _ (hv hp)

/-- A property of values that the values of a session have, that leaves have if they are fit for it, and
that operators keep. -/
structure Carries (s₀ : Session) (fit : ValueForm → Prop) (P : Tracked → Prop) : Prop where
  new : ∀ data, P (.new data)
  any : ∀ name ty, fit (.any name ty) → (Tracked.any name ty).Makes P
  withExpr : ∀ data form e, fit (.withExpr data form) → P (.withExpr data e)
  named : ∀ e ∈ s₀.values, P e.2
  get : ∀ x k, fit (.get x k) → ∀ y st v, s₀.vars.find? x = some y → s₀.stores[k]? = some st →
    st.get y = .ok v → P v
  add : ∀ {a b}, P a → P b → ∀ own, (Tracked.add a b own).Makes P
  lt : ∀ {a b}, P a → P b → ∀ own, (Tracked.lt a b own).Makes P
  equals : ∀ {a b}, P a → P b → ∀ own, (Tracked.equals a b own).Makes P
  and : ∀ {a b}, P a → P b → ∀ own, (Tracked.and a b own).Makes P
  or : ∀ {a b}, P a → P b → ∀ own, (Tracked.or a b own).Makes P
  not : ∀ {a}, P a → a.ty = .bool → (Tracked.not a).Makes P
  cast : ∀ {a} ty, P a → (Tracked.cast a ty).Makes P

section
variable {fit : ValueForm → Prop} {P : Tracked → Prop}

/-- Evaluation from a state in which only names have been lost; if all parts of a form are fit, the value
has the property. -/
def Evaluates (s₀ : Session) (fit : ValueForm → Prop) (P : Tracked → Prop) (v : ValueForm) : Prop :=
  ∀ (inFlight : List Expr) (s : Session), Kept s₀ s →
    (evalValue inFlight v).Leads s (Kept s₀) fun w _ => (∀ p ∈ v.parts, fit p) → P w

/-- Parts of an operand are parts of the form. -/
theorem fit_operands {v l r : ValueForm} (hparts : v.parts = v :: (l.parts ++ r.parts))
    (h : ∀ p ∈ v.parts, fit p) : (∀ p ∈ l.parts, fit p) ∧ ∀ p ∈ r.parts, fit p := by
  rw [hparts] at h
  constructor
  · exact fun p hp => h p (List.mem_cons_of_mem _ (List.mem_append_left _ hp))
  · exact fun p hp => h p (List.mem_cons_of_mem _ (List.mem_append_right _ hp))

section
variable {f : Tracked → Tracked → Ownership → Mint Tracked}
  (hf : ∀ {a b}, P a → P b → ∀ own, (f a b own).Makes P)
  {l r v : ValueForm} (hl : Evaluates s₀ fit P l) (hr : Evaluates s₀ fit P r)
  (hparts : v.parts = v :: (l.parts ++ r.parts))
include hf hl hr hparts

theorem evaluates_operator
    (heval : ∀ inFlight, evalValue inFlight v = do
      let a ← evalValue inFlight l
      let b ← evalValue (a.companion.toList ++ inFlight) r
      mint (f a b (← ownership inFlight a b))) : Evaluates s₀ fit P v := by
  intro inFlight s h
  rw [heval]
  refine .bind (hl _ s h) fun a s' _ h ha => .bind (hr _ s' h) fun b s' _ h hb => ?_
  refine .bind (P := fun _ _ => True) (.get (.pure h trivial)) fun own s' _ h _ => ?_
  refine .mint h.next fun _ hv => ?_
  exact hf (ha (fit_operands hparts hv).1) (hb (fit_operands hparts hv).2) own s'.next

/-- Connectives look at the types of their operands first. -/
theorem evaluates_connective
    (heval : ∀ inFlight, evalValue inFlight v = do
      let a ← evalValue inFlight l
      let b ← evalValue (a.companion.toList ++ inFlight) r
      mint (f (← needBool a) (← needBool b) (← ownership inFlight a b))) : Evaluates s₀ fit P v := by
  intro inFlight s h
  rw [heval]
  refine .bind (hl _ s h) fun a s' _ h ha => .bind (hr _ s' h) fun b s' _ h hb => ?_
  refine .bind (needBool_leads h _) ?_
  rintro _ s' - h ⟨rfl, -⟩
  refine .bind (needBool_leads h _) ?_
  rintro _ s' - h ⟨rfl, -⟩
  refine .bind (P := fun _ _ => True) (.get (.pure h trivial)) fun own s' _ h _ => ?_
  refine .mint h.next fun _ hv => ?_
  exact hf (ha (fit_operands hparts hv).1) (hb (fit_operands hparts hv).2) own s'.next

end

/-- **What operators keep holds of the value of a fit form.** -/
theorem Carries.evaluates (hP : Carries s₀ fit P) (v : ValueForm) : Evaluates s₀ fit P v := by
  induction v with
  | new data => exact fun _ s h => .pure h fun _ => hP.new data
  | any name ty =>
    refine fun _ s h => .mint h.next fun _ hfit => hP.any name ty ?_ _
    exact hfit _ (List.mem_singleton_self _)
  | withExpr data e =>
    refine fun _ s h => .bind (evalExpr_keeps e h) fun _ _ _ h _ => .pure h fun hfit => ?_
    exact hP.withExpr data e _ (hfit _ (List.mem_singleton_self _))
  | copy name =>
    refine fun _ s h => (value_leads h name).mono (fun _ h => h) ?_
    rintro w s - ⟨rfl, hw⟩ -
    obtain ⟨e, he, rfl⟩ := Table.exists_of_find? hw
    exact hP.named e (h.values e he)
  | take name =>
    refine fun _ s h => .bind (value_leads h name) ?_
    rintro w s - - ⟨rfl, hw⟩
    obtain ⟨e, he, rfl⟩ := Table.exists_of_find? hw
    exact ⟨⟨fun e he => h.values e (List.mem_filter.1 he).1, h.vars, h.stores, h.scopes⟩,
      fun _ heq _ => Except.ok.inj heq ▸ hP.named e (h.values e he)⟩
  | get x store =>
    refine fun _ s h => .bind (var_leads h x) ?_
    rintro y s - - ⟨rfl, hy⟩
    refine .bind (store_leads h store) ?_
    rintro st s - - ⟨rfl, hst⟩
    rw [h.vars] at hy
    rw [h.stores] at hst
    exact .lift h fun w hw hfit => hP.get x store (hfit _ (List.mem_singleton_self _)) y st w hy hst hw
  | add l r hl hr => exact evaluates_operator hP.add hl hr rfl fun _ => rfl
  | lt l r hl hr => exact evaluates_operator hP.lt hl hr rfl fun _ => rfl
  | equals l r hl hr => exact evaluates_operator hP.equals hl hr rfl fun _ => rfl
  | and l r hl hr => exact evaluates_connective hP.and hl hr rfl fun _ => rfl
  | or l r hl hr => exact evaluates_connective hP.or hl hr rfl fun _ => rfl
  | not v hv =>
    refine fun inFlight s h => .bind (hv inFlight s h) fun w s' _ h hw => .bind (needBool_leads h _) ?_
    rintro _ s' - h ⟨rfl, hty⟩
    refine .mint h.next fun _ hfit => hP.not (hw fun p hp => ?_) hty _
    exact hfit p (List.mem_cons_of_mem _ hp)
  | cast ty v hv =>
    refine fun inFlight s h => .bind (hv inFlight s h) fun w s' _ h hw => ?_
    refine .mint h.next fun _ hfit => hP.cast ty (hw fun p hp => ?_) _
    exact hfit p (List.mem_cons_of_mem _ hp)

/-- Guards are over `bool`. -/
theorem Carries.evaluates_guard (hP : Carries s₀ fit P) (inFlight : List Expr) (v : ValueForm) :
    (evalGuard inFlight v).Leads s₀ (Kept s₀) fun w _ => w.ty = .bool ∧ ((∀ p ∈ v.parts, fit p) → P w) := by
  refine .bind (hP.evaluates v inFlight s₀ (.refl s₀)) fun w s' _ h hw => ?_
  refine (needBool_leads h _).mono (fun _ h => h) ?_
  rintro _ s'' - ⟨rfl, hty⟩
  exact ⟨hty, hw⟩

end

end

end Session

end Symex
