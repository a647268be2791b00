import Symex.Proofs.Agreement
import Symex.Proofs.SessionRuns

/-!
Agreement in a session. The values, variables and scopes of a session agree with their companions after
a step if they did before it and the step is fit for it (`Fit`): what it makes free is recalled, its
reads have the types of what is there, and its assignments and joins rely on nothing that they should
not.
-/

namespace Symex

namespace Session

/-! ### Agreement in a session -/

/-- What a scope has noted agrees. -/
def Scope.Agrees (R : Reliance) : Scope → Prop
  | .conditional c => c.Agrees R
  | .loop l => l.Agrees R

/-- Values, variables and scopes agree. -/
structure Agrees (R : Reliance) (s : Session) : Prop where
  values : ∀ e ∈ s.values, e.2.toSlot.Agrees R
  stores : ∀ st ∈ s.stores, st.Agrees R
  scopes : ∀ e ∈ s.scopes, e.2.Agrees R

theorem ofConfig_agrees (R : Reliance) (config : Config) : (ofConfig config).Agrees R where
  values _ h := nomatch h
  stores st h := by
    obtain rfl := List.mem_singleton.1 h
    exact fun _ h => nomatch h
  scopes _ h := nomatch h

section
variable {R : Reliance} {s : Session} (h : s.Agrees R)
include h

theorem Agrees.next (n : Nat) : Agrees R { s with next := n } := ⟨h.values, h.stores, h.scopes⟩

theorem Agrees.store {index : Nat} {st : Store} (hst : s.stores[index]? = some st) : st.Agrees R :=
  h.stores st (List.mem_of_getElem? hst)

theorem Agrees.scope {name : String} {sc : Scope} (hsc : s.scopes.find? name = some sc) :
    sc.Agrees R := by
  obtain ⟨e, he, rfl⟩ := Table.exists_of_find? hsc
  exact h.scopes e he

theorem Agrees.setValue {v : Tracked} (hv : v.toSlot.Agrees R) (name : String) :
    Agrees R { s with values := s.values.insert name v } := by
  refine ⟨fun e he => ?_, h.stores, h.scopes⟩
  rcases Table.mem_of_mem_insert he with rfl | he
  · exact hv
  · exact h.values e he

theorem Agrees.setStore {st : Store} (hst : st.Agrees R) (index : Nat) :
    Agrees R { s with stores := s.stores.set index st } := by
  refine ⟨h.values, fun st' hst' => ?_, h.scopes⟩
  rcases List.mem_or_eq_of_mem_set hst' with hst' | rfl
  · exact h.stores st' hst'
  · exact hst

theorem Agrees.addStore {st : Store} (hst : st.Agrees R) :
    Agrees R { s with stores := s.stores ++ [st] } := by
  refine ⟨h.values, fun st' hst' => ?_, h.scopes⟩
  rcases List.mem_append.1 hst' with hst' | hst'
  · exact h.stores st' hst'
  · obtain rfl := List.mem_singleton.1 hst'
    exact hst

theorem Agrees.setScope {sc : Scope} (hsc : sc.Agrees R) (name : String) :
    Agrees R { s with scopes := s.scopes.put name sc } := by
  refine ⟨h.values, h.stores, fun e he => ?_⟩
  rcases Table.mem_of_mem_put he with rfl | he
  · exact hsc
  · exact h.scopes e he

theorem Agrees.dropName (kind : NameKind) (name : String) :
    Agrees R ((dropName kind name).run.run s).2 := by
  cases kind with
  | value => exact ⟨fun e he => h.values e ((List.mem_filter.1 he).1), h.stores, h.scopes⟩
  | expr => exact ⟨h.values, h.stores, h.scopes⟩
  | draft => exact ⟨h.values, h.stores, h.scopes⟩
  | scope => exact ⟨h.values, h.stores, fun e he => h.scopes e ((List.mem_filter.1 he).1)⟩

end

theorem Kept.agrees {R : Reliance} {s s' : Session} (h : Kept s s') (hs : s.Agrees R) : s'.Agrees R where
  values e he := hs.values e (h.values e he)
  stores st hst := hs.stores st (h.stores ▸ hst)
  scopes e he := hs.scopes e (h.scopes ▸ he)

/-! ### Evaluating forms -/

/-- Whether a read has the type of what is there, or there is no companion. -/
def readsAs (s : Session) (x : String) (store : Nat) : Bool :=
  match s.vars.find? x, s.stores[store]? with
  | some x, some st => st.readsAs x
  | _, _ => true

/-- A form that gives values that agree: it takes no companion from outside, what it makes free is
recalled as zero where it is relied on, and its reads have the types of what is there. -/
def FitForm (R : Reliance) (s : Session) (v : ValueForm) : Prop :=
  ∀ p ∈ v.parts,
    match p with
    | .withExpr _ _ => False
    | .any name ty => ∀ env, R.on env false → env.value name ty = .zero ty
    | .get x store => s.readsAs x store = true
    | _ => True

section
variable {R : Reliance} {s₀ : Session}

/-- Parts of a fit form are fit. -/
theorem FitForm.part {v : ValueForm} (h : FitForm R s₀ v) : ∀ p ∈ v.parts, FitForm R s₀ p :=
  fun _ hp q hq => h q (ValueForm.parts_trans hp hq)

theorem Agrees.carries (hs : s₀.Agrees R) : Carries s₀ (fun p => FitForm R s₀ p) (·.toSlot.Agrees R) where
  new := Tracked.new_agrees
  any _ _ hfit := Tracked.any_agrees (hfit _ (List.mem_singleton_self _))
  withExpr _ _ _ hfit := (hfit _ (List.mem_singleton_self _)).elim
  named := hs.values
  get x k hfit y st v hy hst hv := by
    have hreads : s₀.readsAs x k = true := hfit _ (List.mem_singleton_self _)
    rw [readsAs, hy, hst] at hreads
    exact Store.get_agrees (hs.store hst) hreads hv
  add := Tracked.add_agrees
  lt := Tracked.lt_agrees
  equals := Tracked.equals_agrees
  and := Tracked.and_agrees
  or := Tracked.or_agrees
  not ha _ := Tracked.not_agrees ha
  cast ty ha := (Tracked.cast_agrees ha ty).mono fun _ h => h.2

/-- **Fit forms evaluate to values that agree.** -/
theorem evalValue_evaluates (hs : s₀.Agrees R) (v : ValueForm) (inFlight : List Expr) :
    (evalValue inFlight v).Leads s₀ (Kept s₀) fun w _ => FitForm R s₀ v → w.toSlot.Agrees R :=
  (hs.carries.evaluates v inFlight s₀ (.refl s₀)).mono (fun _ h => h) fun _ _ _ hw hfit => hw hfit.part

theorem evalGuard_evaluates (hs : s₀.Agrees R) (v : ValueForm) :
    (evalGuard [] v).Leads s₀ (Kept s₀) fun w _ => FitForm R s₀ v → w.toSlot.Agrees R :=
  (hs.carries.evaluates_guard [] v).mono (fun _ h => h) fun _ _ _ hw hfit => hw.2 hfit.part

end

/-! ### Steps -/

/-- The forms of which a step keeps the values. -/
def Step.forms : Step → List ValueForm
  | .bind _ v | .assign _ v | .declare _ v _ | .set _ v _ | .openIf _ v | .unwind _ v _ => [v]
  | _ => []

/-- Whether a form takes its companion from outside. -/
def ValueForm.isWithExpr : ValueForm → Bool
  | .withExpr _ _ => true
  | _ => false

/-- Whether a step is a single call that takes no companion from outside. Whole conditionals and loops
are written out as the calls they make. -/
def Step.plain (step : Step) : Bool :=
  match step with
  | .cond _ _ _ _ _ | .loop _ _ _ _ => false
  | _ => step.forms.all fun v => v.parts.all (!·.isWithExpr)

/-- Whether a form, if it is a read, has the type of what is there. -/
def readFits (s : Session) : ValueForm → Bool
  | .get x store => s.readsAs x store
  | _ => true

/-- Whether the reads of a step have the types of what is there, or there are no companions. -/
def readsFit (s : Session) (step : Step) : Bool := step.forms.all fun v => v.parts.all s.readFits

theorem Step.plain_forms {step : Step} (h : step.plain = true) :
    ∀ v ∈ step.forms, ∀ p ∈ v.parts, p.isWithExpr = false := by
  have hall : (step.forms.all fun v => v.parts.all (!·.isWithExpr)) = true := by
    unfold Step.plain at h
    split at h
    · cases h
    · cases h
    · exact h
  simpa using hall

/-- Forms are fit if what they make free is recalled. -/
theorem fitForm_of_plain {R : Reliance} {s : Session} {step : Step} (hplain : step.plain = true)
    (hreads : s.readsFit step = true) {v : ValueForm} (hv : v ∈ step.forms)
    (hany : ∀ name ty, .any name ty ∈ v.parts → ∀ env, R.on env false → env.value name ty = .zero ty) :
    s.FitForm R v := by
  intro p hp
  have hread : s.readFits p = true := List.all_eq_true.1 (List.all_eq_true.1 hreads v hv) p hp
  have hexpr := Step.plain_forms hplain v hv p hp
  cases p with
  | withExpr data e => cases hexpr
  | any name ty => exact hany name ty hp
  | get x store => exact hread
  | _ => trivial

/-- A step after which everything agrees that did before. Its forms are fit; a leaf that is given to a
free value is recalled with its data; an assignment and its source are relied on alike; and what a join
leaves agrees. Whole conditionals and loops are written out as the calls they make. -/
def Fit (R : Reliance) (s : Session) : Step → Prop
  | .bind _ v | .declare _ v _ | .openIf _ v => s.FitForm R v
  | .symbolize name symbol => ∀ v, s.values.find? name = some v → v.concrete = false →
      ∀ env, R.on env false → env.value symbol v.ty = v.data
  | .assign name v => s.FitForm R v ∧ ∀ w s', (evalValue [] v).run.run s = (.ok w, s') →
      ∀ d, s'.values.find? name = some d → ∀ env, R.on env d.concrete → R.on env w.concrete
  | .set x v store => s.FitForm R v ∧ ∀ w s', (evalValue [] v).run.run s = (.ok w, s') →
      ∀ y st d, s'.vars.find? x = some y → s'.stores[store]? = some st → st.slot y.index = .ok d →
        ∀ env, R.on env d.concrete → R.on env w.concrete
  | .finish scope store => ∀ c st, s.scopes.find? scope = some (.conditional c) →
      s.stores[store]? = some st → ∀ c' st' n, c.finish st s.next = ((.ok (), c', st'), n) → st'.Agrees R
  | .unwind scope v store => s.FitForm R v ∧ ∀ g s', (evalGuard [] v).run.run s = (.ok g, s') →
      ∀ l st, s'.scopes.find? scope = some (.loop l) → s'.stores[store]? = some st →
        (l.unwind st g s'.next).1.2.2.Agrees R
  | .cond _ _ _ _ _ | .loop _ _ _ _ => False
  | _ => True

section
variable {R : Reliance} {s : Session} (hs : s.Agrees R)
include hs

open Run (Leads)

/-- Evaluation of a form where everything agrees. -/
theorem evalValue_leads (inFlight : List Expr) (v : ValueForm) : (evalValue inFlight v).Leads s
    (Agrees R) fun w s' => Kept s s' ∧ (s.FitForm R v → w.toSlot.Agrees R) :=
  (evalValue_evaluates hs v inFlight).mono (fun _ h => h.agrees hs) fun _ _ h hw => ⟨h, hw⟩

theorem evalGuard_leads (v : ValueForm) : (evalGuard [] v).Leads s (Agrees R) fun w s' =>
    Kept s s' ∧ (s.FitForm R v → w.toSlot.Agrees R) :=
  (evalGuard_evaluates hs v).mono (fun _ h => h.agrees hs) fun _ _ h hw => ⟨h, hw⟩

theorem evalExpr_leads (e : ExprForm) : (evalExpr e).Leads s (Agrees R) fun _ _ => True :=
  (evalExpr_keeps e (.refl s)).mono (fun _ h => h.agrees hs) fun _ _ _ h => h

theorem symbolize_leads {name symbol : String} (hfit : s.Fit R (.symbolize name symbol)) :
    (runStep [] (.symbolize name symbol)).Leads s (Agrees R) fun _ _ => True := by
  refine .bind (value_leads hs name) ?_
  rintro v s - - ⟨rfl, hv⟩
  refine .bind (P := fun w _ => w.toSlot.Agrees R) (.mint hs.next fun _ => ?_) fun w s' _ hs hw => ?_
  · exact Tracked.symbolize_agrees (hfit v hv) _
  · exact .modify (.pure (hs.setValue hw name) trivial)

theorem assign_leads {name : String} {v : ValueForm} (hfit : s.Fit R (.assign name v)) :
    (runStep [] (.assign name v)).Leads s (Agrees R) fun _ _ => True := by
  refine .bind (evalValue_leads hs [] v) fun w s' hrun hs' hw => ?_
  refine .bind (value_leads hs' name) ?_
  rintro d s' - - ⟨rfl, hd⟩
  refine .bind (P := fun w _ => w.toSlot.Agrees R) (.mint hs'.next fun _ => ?_) fun w s' _ hs hw => ?_
  · exact Tracked.assign_agrees (hw.2 hfit.1) (hfit.2 w _ hrun d hd) _
  · exact .modify (.pure (hs.setValue hw name) trivial)

theorem set_leads {x : String} {v : ValueForm} {index : Nat} (hfit : s.Fit R (.set x v index)) :
    (runStep [] (.set x v index)).Leads s (Agrees R) fun _ _ => True := by
  refine .bind (evalValue_leads hs [] v) fun w s' hrun hs' hw => ?_
  refine .bind (var_leads hs' x) ?_
  rintro y s' - - ⟨rfl, hy⟩
  refine .bind (store_leads hs' index) ?_
  rintro st s' - - ⟨rfl, hst⟩
  refine .bind (P := fun st' _ => st'.Agrees R) (.build hs'.next fun st' n hset => ?_) ?_
  · exact Store.set_agrees (hs'.store hst) (hw.2 hfit.1) (hfit.2 w _ hrun y st · hy hst) hset
  · intro st' s' _ hs hst'
    refine .modify (.bind (P := fun _ _ => True) (.lift (hs.setStore hst' index) fun _ _ => trivial) ?_)
    exact fun _ _ _ hs _ => .pure hs trivial

theorem beginThen_agrees (scope : String) (index : Nat) :
    (runStep [] (.beginThen scope index)).Leads s (Agrees R) fun _ _ => True := by
  refine beginThen_leads hs fun c st b c' hc hst hrun => ⟨hs.setScope ?_ scope, trivial⟩
  exact Conditional.beginThen_agrees (hs.scope hc) (hs.store hst) hrun

theorem beginElse_agrees (scope : String) (index : Nat) :
    (runStep [] (.beginElse scope index)).Leads s (Agrees R) fun _ _ => True := by
  refine beginElse_leads hs fun c st b c' st' hc hst hrun => ⟨?_, trivial⟩
  obtain ⟨hc', hst'⟩ := Conditional.beginElse_agrees (hs.scope hc) (hs.store hst) hrun
  have hsc : Scope.Agrees R (.conditional c') := hc'
  exact (hs.setScope hsc scope).setStore hst' index

theorem finish_agrees {scope : String} {index : Nat} (hfit : s.Fit R (.finish scope index)) :
    (runStep [] (.finish scope index)).Leads s (Agrees R) fun _ _ => True := by
  refine finish_leads hs fun c st c' st' n hc hst hrun => ?_
  have hsc : Scope.Agrees R (.conditional c') :=
    (Conditional.finish_agrees (hs.scope hc) (hs.store hst) hrun).1
  exact ((hs.next n).setScope hsc scope).setStore (hfit c st hc hst c' st' n hrun) index

theorem unwind_leads {scope : String} {v : ValueForm} {index : Nat}
    (hfit : s.Fit R (.unwind scope v index)) :
    (runStep [] (.unwind scope v index)).Leads s (Agrees R) fun _ _ => True := by
  refine .bind (P := fun _ _ => True) ?_ fun _ _ _ hs _ => .pure hs trivial
  refine .bind (evalGuard_leads hs v) fun g s' hrun hs' hg => ?_
  refine .bind (namedLoop_leads hs' scope) ?_
  rintro l s' - - ⟨rfl, hl⟩
  refine .bind (store_leads hs' index) ?_
  rintro st s' - - ⟨rfl, hst⟩
  refine .bind (P := fun r _ => r.2.1.Agrees R ∧ r.2.2.Agrees R) (.mint hs'.next fun _ => ?_) ?_
  · have hg := hg.2 hfit.1
    exact ⟨(Loop.unwind_agrees (hs'.scope hl) (hs'.store hst) hg _).1, hfit.2 g _ hrun l st hl hst⟩
  · rintro ⟨more, l', st'⟩ s' - hs ⟨hl', hst'⟩
    have hsc : Scope.Agrees R (.loop l') := hl'
    refine .modify (.modify (.bind (P := fun _ _ => True) (.lift ?_ fun _ _ => trivial) ?_))
    · exact (hs.setScope hsc scope).setStore hst' index
    · exact fun _ _ _ hs _ => .pure hs trivial

theorem track_agrees (scope x : String) :
    (runStep [] (.track scope x)).Leads s (Agrees R) fun _ _ => True := by
  refine track_leads hs (fun c y c' hc hrun => hs.setScope ?_ scope)
    fun l y l' hl hrun => hs.setScope ?_ scope
  · exact Conditional.track_agrees (hs.scope hc) hrun
  · exact Loop.track_agrees (hs.scope hl) hrun

theorem declare_leads {x : String} {v : ValueForm} {index : Nat} (hfit : s.Fit R (.declare x v index)) :
    (runStep [] (.declare x v index)).Leads s (Agrees R) fun _ _ => True := by
  refine .bind (evalValue_leads hs [] v) fun w s' _ hs' hw => ?_
  refine .bind (store_leads hs' index) ?_
  rintro st s' - - ⟨rfl, hst⟩
  have hdeclared := hs'.setStore ((hs'.store hst).declare (hw.2 hfit)) index
  exact .modify (.modify (.pure ⟨hdeclared.values, hdeclared.stores, hdeclared.scopes⟩ trivial))

theorem reopen_leads (name : String) (op : Operator) (target : String) :
    (runStep [] (.reopen name op target)).Leads s (Agrees R) fun _ _ => True := by
  refine .bind (P := fun _ _ => True) (.get (.need hs fun _ _ => trivial)) fun e s' _ hs _ => ?_
  refine .bind (P := fun _ _ => True) ⟨hs.dropName .expr name, fun _ _ => trivial⟩ fun _ s' _ hs _ => ?_
  refine .get ?_
  split
  · exact .modify (.pure ⟨hs.values, hs.stores, hs.scopes⟩ trivial)
  · exact .modify (.pure ⟨hs.values, hs.stores, hs.scopes⟩ trivial)

theorem close_leads (name target : String) :
    (runStep [] (.close name target)).Leads s (Agrees R) fun _ _ => True := by
  refine .bind (P := fun _ _ => True) (.get (.need hs fun _ _ => trivial)) fun b s' _ hs _ => ?_
  refine .bind (P := fun _ _ => True) ⟨hs.dropName .draft name, fun _ _ => trivial⟩ fun _ s' _ hs _ => ?_
  refine .bind (P := fun _ _ => True) (.mint hs.next fun _ => trivial) fun e s' _ hs _ => ?_
  exact .modify (.pure ⟨hs.values, hs.stores, hs.scopes⟩ trivial)

/-- **A fit step keeps agreement.** -/
theorem Agrees.after {step : Step} (hfit : s.Fit R step) : (s.after step).Agrees R := by
  suffices h : (runStep [] step).Leads s (Agrees R) fun _ _ => True from h.1
  cases step with
  | bind name v =>
    refine .bind (evalValue_leads hs [] v) fun w s' _ hs' hw => ?_
    exact .modify (.pure (hs'.setValue (hw.2 hfit) name) trivial)
  | eval v => exact .bind (evalValue_leads hs [] v) fun _ _ _ hs' _ => .pure hs' trivial
  | inspect name => exact .bind (value_leads hs name) fun _ _ _ hs' _ => .pure hs' trivial
  | symbolize name symbol => exact symbolize_leads hs hfit
  | assign name v => exact assign_leads hs hfit
  | same a b =>
    refine .bind (evalValue_leads hs [] a) fun a s' _ hs' _ => ?_
    refine .bind (evalValue_leads hs' _ b) fun b s' _ hs' _ => ?_
    split
    · exact .pure hs' trivial
    · exact .pure hs' trivial
  | encode v models =>
    refine .bind (evalValue_leads hs [] v) fun v s' _ hs' _ => ?_
    split
    · exact .pure hs' trivial
    · refine .bind (P := fun _ _ => True) (.lift hs' fun _ _ => trivial) fun _ _ _ hs' _ => ?_
      exact .pure hs' trivial
  | drop kind name =>
    refine .bind (P := fun _ _ => True) ⟨hs.dropName kind name, fun _ _ => trivial⟩ fun _ _ _ hs' _ => ?_
    exact .pure hs' trivial
  | expr name e =>
    refine .bind (evalExpr_leads hs e) fun e s' _ hs' _ => ?_
    exact .modify (.pure ⟨hs'.values, hs'.stores, hs'.scopes⟩ trivial)
  | draft name op ty => exact .modify (.pure ⟨hs.values, hs.stores, hs.scopes⟩ trivial)
  | append name e =>
    refine .bind (evalExpr_leads hs e) fun e s' _ hs' _ => ?_
    refine .bind (P := fun _ _ => True) (.get (.need hs' fun _ _ => trivial)) fun b s' _ hs' _ => ?_
    exact .modify (.pure ⟨hs'.values, hs'.stores, hs'.scopes⟩ trivial)
  | prepend name e =>
    refine .bind (evalExpr_leads hs e) fun e s' _ hs' _ => ?_
    refine .bind (P := fun _ _ => True) (.get (.need hs' fun _ _ => trivial)) fun b s' _ hs' _ => ?_
    exact .modify (.pure ⟨hs'.values, hs'.stores, hs'.scopes⟩ trivial)
  | inspectDraft name =>
    exact .bind (P := fun _ _ => True) (.get (.need hs fun _ _ => trivial)) fun _ _ _ hs' _ =>
      .pure hs' trivial
  | close name target => exact close_leads hs name target
  | reopen name op target => exact reopen_leads hs name op target
  | sameExpr a b =>
    refine .bind (evalExpr_leads hs a) fun _ _ _ hs' _ => .bind (evalExpr_leads hs' b) ?_
    exact fun _ _ _ hs' _ => .pure hs' trivial
  | encodeExpr e models =>
    refine .bind (evalExpr_leads hs e) fun _ _ _ hs' _ => ?_
    exact .bind (P := fun _ _ => True) (.lift hs' fun _ _ => trivial) fun _ _ _ hs' _ => .pure hs' trivial
  | newStore => exact .get (.modify (.pure (hs.addStore fun _ h => nomatch h) trivial))
  | cloneStore index =>
    refine .bind (store_leads hs index) ?_
    rintro st s - - ⟨rfl, hst⟩
    exact .get (.modify (.pure (hs.addStore (hs.store hst)) trivial))
  | storeInfo index => exact .bind (store_leads hs index) fun _ _ _ hs' _ => .pure hs' trivial
  | declare x v index => exact declare_leads hs hfit
  | get x index =>
    refine .bind (var_leads hs x) fun _ _ _ hs' _ => ?_
    refine .bind (store_leads hs' index) fun _ _ _ hs' _ => ?_
    exact .bind (P := fun _ _ => True) (.lift hs' fun _ _ => trivial) fun _ _ _ hs' _ => .pure hs' trivial
  | set x v index => exact set_leads hs hfit
  | dump index => exact .bind (store_leads hs index) fun _ _ _ hs' _ => .get (.pure hs' trivial)
  | openIf name guard =>
    refine .bind (evalGuard_leads hs guard) fun g s' _ hs' hg => ?_
    have hc : Scope.Agrees R (.conditional { guard := g }) :=
      ⟨hg.2 hfit, fun _ h => (nomatch h), fun _ h => (nomatch h)⟩
    exact .modify (.pure (hs'.setScope hc name) trivial)
  | beginThen scope index => exact beginThen_agrees hs scope index
  | beginElse scope index => exact beginElse_agrees hs scope index
  | finish scope index => exact finish_agrees hs hfit
  | openLoop name policy =>
    refine .get (.modify (.pure (hs.setScope ?_ name) trivial))
    cases policy with
    | none => exact fun _ h => nomatch h
    | some p => exact fun _ h => nomatch h
  | unwind scope guard index => exact unwind_leads hs hfit
  | track scope x => exact track_agrees hs scope x
  | askBound bound guard calls =>
    exact .bind (evalGuard_leads hs guard) fun _ _ _ hs' _ => .pure hs' trivial
  | cond guard track yes no index => exact hfit.elim
  | loop scope guard body index => exact hfit.elim
  | branch v =>
    refine .bind (evalGuard_leads hs v) fun g s' _ hs' _ => .get ?_
    refine .bind (P := fun _ _ => True) (.mint hs'.next fun _ => trivial) fun _ _ _ hs' _ => ?_
    exact .modify (.pure ⟨hs'.values, hs'.stores, hs'.scopes⟩ trivial)
  | resetPath => exact .modify (.get (.pure ⟨hs.values, hs.stores, hs.scopes⟩ trivial))
  | path => exact .get (.pure hs trivial)
  | encodePath declared models => exact .get (.pure hs trivial)

end

end Session

end Symex
