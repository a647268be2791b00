import Symex.Proofs.TypeTags

/-!
Typing along the runs of a session. If every handle and every scope is used with the store it belongs to,
and no value takes a companion from outside, then from any state of a run on the variables keep their tags
(`Keeps`), and the companions of all values and variables are well-typed. Whole conditionals and loops are
runs within a run; what they have noted before suits their variables afterwards, since tags only ever grow
by those of new variables.
-/

namespace Symex

namespace Session

open Run (Leads)

/-! ### Where handles and scopes belong -/

/-- The stores that handles and scopes belong to, by their names. -/
structure Homes where
  var : String → Nat
  scope : String → Nat

/-- Whether a part of a form reads a variable in the store of its handle, and takes no companion from
outside. -/
def ValueForm.partAtHome (home : Homes) : ValueForm → Bool
  | .withExpr _ _ => false
  | .get x k => k = home.var x
  | _ => true

def ValueForm.atHome (home : Homes) (v : ValueForm) : Bool := v.parts.all (·.partAtHome home)

mutual
/-- Whether a step uses handles and scopes with their stores. Steps that keep no value may do as they
like, and a conditional that runs as a whole has one store anyway. -/
def Step.atHome (home : Homes) : Step → Bool
  | .bind _ v | .assign _ v | .openIf _ v => v.atHome home
  | .declare x v k | .set x v k => v.atHome home && k = home.var x
  | .beginThen scope k | .beginElse scope k | .finish scope k => k = home.scope scope
  | .unwind scope guard k => guard.atHome home && k = home.scope scope
  | .cond guard _ yes none _ => guard.atHome home && allAtHome home yes
  | .cond guard _ yes (some no) _ => guard.atHome home && (allAtHome home yes && allAtHome home no)
  | .loop scope guard body k => guard.atHome home && (k = home.scope scope && allAtHome home body)
  | _ => true
def Step.allAtHome (home : Homes) : List Step → Bool
  | [] => true
  | step :: rest => step.atHome home && allAtHome home rest
end

/-! ### Well-typed sessions -/

/-- What a scope has noted suits its variables. -/
def Scope.Typed (tags : List (Ty × Bool)) : Scope → Prop
  | .conditional c => c.Typed tags
  | .loop l => l.Typed tags

theorem Scope.Typed.mono {tags tags' : List (Ty × Bool)} {sc : Scope} (h : sc.Typed tags)
    (hle : tags <+: tags') : sc.Typed tags' := by
  cases sc with
  | conditional c => exact Conditional.Typed.mono h hle
  | loop l => exact Loop.Typed.mono h hle

/-- The tags of the variables in a store. -/
def tagsAt (s : Session) (k : Nat) : List (Ty × Bool) := (s.storeAt k).tags

/-- Companions are well-typed, handles have the types of their variables, and what scopes have noted
suits the variables of their stores. -/
structure WellTyped (home : Homes) (s : Session) : Prop where
  values : ∀ e ∈ s.values, e.2.toDual.WellTyped
  stores : ∀ st ∈ s.stores, ∀ slot ∈ st.slots, slot.toDual.WellTyped
  vars : ∀ e ∈ s.vars, e.2.Names (s.tagsAt (home.var e.1))
  scopes : ∀ e ∈ s.scopes, e.2.Typed (s.tagsAt (home.scope e.1))

/-- A later state is well-typed, and all variables have the tags they had. -/
structure Keeps (home : Homes) (s s' : Session) : Prop where
  wellTyped : s'.WellTyped home
  tags : ∀ k, s.tagsAt k <+: s'.tagsAt k

theorem ofConfig_wellTyped (home : Homes) (config : Config) : (ofConfig config).WellTyped home where
  values _ h := nomatch h
  stores st h := by
    obtain rfl := List.mem_singleton.1 h
    exact fun _ h => nomatch h
  vars _ h := nomatch h
  scopes _ h := nomatch h

section
variable {home : Homes} {s s' s₀ : Session}

theorem tagsAt_of_getElem? {k : Nat} {st : Store} (hst : s.stores[k]? = some st) : s.tagsAt k = st.tags := by
  rw [tagsAt, storeAt, hst]
  rfl

theorem tagsAt_set {k : Nat} (hk : k < s.stores.length) (st : Store) :
    tagsAt { s with stores := s.stores.set k st } k = st.tags := by
  simp [tagsAt, storeAt, hk]

theorem tagsAt_set_of_ne {k j : Nat} (hkj : k ≠ j) (st : Store) :
    tagsAt { s with stores := s.stores.set k st } j = s.tagsAt j := by
  simp [tagsAt, storeAt, List.getElem?_set_ne hkj]

theorem Keeps.refl (h : s.WellTyped home) : s.Keeps home s := ⟨h, fun _ => List.prefix_refl _⟩

theorem Keeps.trans (h : s₀.Keeps home s) (h' : s.Keeps home s') : s₀.Keeps home s' :=
  ⟨h'.wellTyped, fun k => (h.tags k).trans (h'.tags k)⟩

/-- A run from a state on is part of one that has come there. -/
theorem Keeps.leads (h : s₀.Keeps home s) {α : Type} {x : Run α} {Q : α → Session → Prop}
    (hx : x.Leads s (s.Keeps home) Q) : x.Leads s (s₀.Keeps home) Q :=
  hx.mono (fun _ h' => h.trans h') fun _ _ _ hq => hq

section
variable (h : s₀.Keeps home s)
include h

theorem Keeps.next (n : Nat) : s₀.Keeps home { s with next := n } :=
  ⟨⟨h.wellTyped.values, h.wellTyped.stores, h.wellTyped.vars, h.wellTyped.scopes⟩, h.tags⟩

theorem Keeps.kept (hk : Kept s s') : s₀.Keeps home s' := by
  have htags : s'.tagsAt = s.tagsAt := by
    funext k
    rw [tagsAt, tagsAt, storeAt, storeAt, hk.stores]
  refine ⟨⟨fun e he => h.wellTyped.values e (hk.values e he), ?_, ?_, ?_⟩, ?_⟩
  · rw [hk.stores]
    exact h.wellTyped.stores
  · rw [hk.vars, htags]
    exact h.wellTyped.vars
  · rw [hk.scopes, htags]
    exact h.wellTyped.scopes
  · rw [htags]
    exact h.tags

theorem Keeps.holds {k : Nat} {st : Store} (hst : s.stores[k]? = some st) : st.Holds (s.tagsAt k) :=
  ⟨(tagsAt_of_getElem? hst).symm, h.wellTyped.stores st (List.mem_of_getElem? hst)⟩

theorem Keeps.var {name : String} {x : Var} (hx : s.vars.find? name = some x) :
    x.Names (s.tagsAt (home.var name)) :=
  h.wellTyped.vars _ (Table.mem_of_find? hx)

theorem Keeps.scope {name : String} {sc : Scope} (hsc : s.scopes.find? name = some sc) :
    sc.Typed (s.tagsAt (home.scope name)) :=
  h.wellTyped.scopes _ (Table.mem_of_find? hsc)

theorem Keeps.setValue {v : Tracked} (hv : v.toDual.WellTyped) (name : String) :
    s₀.Keeps home { s with values := s.values.insert name v } := by
  refine ⟨⟨fun e he => ?_, h.wellTyped.stores, h.wellTyped.vars, h.wellTyped.scopes⟩, h.tags⟩
  rcases Table.mem_of_mem_insert he with rfl | he
  · exact hv
  · exact h.wellTyped.values e he

theorem Keeps.setVar {name : String} {x : Var} (hx : x.Names (s.tagsAt (home.var name))) :
    s₀.Keeps home { s with vars := s.vars.insert name x } := by
  refine ⟨⟨h.wellTyped.values, h.wellTyped.stores, fun e he => ?_, h.wellTyped.scopes⟩, h.tags⟩
  rcases Table.mem_of_mem_insert he with rfl | he
  · exact hx
  · exact h.wellTyped.vars e he

theorem Keeps.setScope {name : String} (sc : Scope) (hsc : sc.Typed (s.tagsAt (home.scope name))) :
    s₀.Keeps home { s with scopes := s.scopes.put name sc } := by
  refine ⟨⟨h.wellTyped.values, h.wellTyped.stores, h.wellTyped.vars, fun e he => ?_⟩, h.tags⟩
  rcases Table.mem_of_mem_put he with rfl | he
  · exact hsc
  · exact h.wellTyped.scopes e he

theorem Keeps.dropName (kind : NameKind) (name : String) :
    s₀.Keeps home ((dropName kind name).run.run s).2 := by
  obtain ⟨⟨values, stores, vars, scopes⟩, tags⟩ := h
  cases kind with
  | value => exact ⟨⟨fun e he => values e (List.mem_filter.1 he).1, stores, vars, scopes⟩, tags⟩
  | expr => exact ⟨⟨values, stores, vars, scopes⟩, tags⟩
  | draft => exact ⟨⟨values, stores, vars, scopes⟩, tags⟩
  | scope => exact ⟨⟨values, stores, vars, fun e he => scopes e (List.mem_filter.1 he).1⟩, tags⟩

/-- If the tags of all stores have at most grown, handles and scopes are as good as before. -/
theorem Keeps.setStores {stores : List Store} (hst : ∀ st ∈ stores, ∀ slot ∈ st.slots, slot.toDual.WellTyped)
    (htags : ∀ k, s.tagsAt k <+: tagsAt { s with stores } k) : s₀.Keeps home { s with stores } where
  wellTyped :=
    { values := h.wellTyped.values
      stores := hst
      vars := fun e he => (h.wellTyped.vars e he).mono (htags _)
      scopes := fun e he => (h.wellTyped.scopes e he).mono (htags _) }
  tags k := (h.tags k).trans (htags k)

theorem Keeps.setStore {k : Nat} {st st' : Store} (hst : s.stores[k]? = some st)
    {tags : List (Ty × Bool)} (hst' : st'.Holds tags) (hle : s.tagsAt k <+: tags) :
    s₀.Keeps home { s with stores := s.stores.set k st' } := by
  have hk : k < s.stores.length := (List.getElem?_eq_some_iff.1 hst).1
  refine h.setStores (fun st'' hst'' => ?_) fun j => ?_
  · rcases List.mem_or_eq_of_mem_set hst'' with hmem | rfl
    · exact h.wellTyped.stores st'' hmem
    · exact hst'.wellTyped
  · by_cases hkj : k = j
    · subst hkj
      rw [tagsAt_set hk, hst'.tags_eq]
      exact hle
    · have heq : tagsAt { s with stores := s.stores.set k st' } j = s.tagsAt j := tagsAt_set_of_ne hkj st'
      exact heq ▸ List.prefix_refl _

theorem Keeps.addStore {st : Store} (hst : ∀ slot ∈ st.slots, slot.toDual.WellTyped) :
    s₀.Keeps home { s with stores := s.stores ++ [st] } := by
  refine h.setStores (fun st' hst' => ?_) fun j => ?_
  · rcases List.mem_append.1 hst' with hmem | hmem
    · exact h.wellTyped.stores st' hmem
    · obtain rfl := List.mem_singleton.1 hmem
      exact hst
  · by_cases hj : j < s.stores.length
    · simp [tagsAt, storeAt, List.getElem?_append_left hj]
    · have hempty : s.tagsAt j = [] := by
        simp [tagsAt, storeAt, Store.tags, List.getElem?_eq_none (Nat.le_of_not_lt hj)]
      rw [hempty]
      exact List.nil_prefix

end

/-! ### Forms -/

theorem WellTyped.carries (h : s.WellTyped home) :
    Carries s (fun p => p.partAtHome home = true) (·.toDual.WellTyped) where
  new := Tracked.new_wellTyped
  any name ty _ := Tracked.any_wellTyped name ty
  withExpr _ _ _ hfit := absurd hfit (by simp [ValueForm.partAtHome])
  named := h.values
  get x k hfit y st v hy hst hv := by
    obtain rfl : k = home.var x := by simpa [ValueForm.partAtHome] using hfit
    exact ((Keeps.refl h).holds hst).get ((Keeps.refl h).var hy) hv
  add := Tracked.add_wellTyped
  lt := Tracked.lt_wellTyped
  equals := Tracked.equals_wellTyped
  and := Tracked.and_wellTyped
  or := Tracked.or_wellTyped
  not := Tracked.not_wellTyped
  cast ty ha := (Tracked.cast_wellTyped ha ty).mono fun _ h => h.2

section
variable (h : s₀.Keeps home s) (inFlight : List Expr) {v : ValueForm} (hv : v.atHome home = true)
include h hv

theorem Keeps.evalValue : (evalValue inFlight v).Leads s (s₀.Keeps home) fun w _ => w.toDual.WellTyped :=
  (h.wellTyped.carries.evaluates v inFlight s (.refl s)).mono (fun _ hk => h.kept hk)
    fun _ _ _ hw => hw (List.all_eq_true.1 hv)

theorem Keeps.evalGuard : (evalGuard inFlight v).Leads s (s₀.Keeps home) fun w _ => w.IsCondition :=
  (h.wellTyped.carries.evaluates_guard inFlight v).mono (fun _ hk => h.kept hk)
    fun _ _ _ hw => ⟨hw.1, hw.2 (List.all_eq_true.1 hv)⟩

end

/-- A call on a store builds nodes. -/
theorem Keeps.build (h : s₀.Keeps home s) {α : Type} {x : Build α} {Q : α → Prop}
    (hx : ∀ a n, x s.next = .ok (a, n) → Q a) :
    (build x).Leads s (s₀.Keeps home) fun a s' => (∃ n, s' = { s with next := n }) ∧ Q a :=
  .build h.next fun a n hr => ⟨⟨n, rfl⟩, hx a n hr⟩

theorem Keeps.mint (h : s₀.Keeps home s) {α : Type} {x : Mint α} {Q : α → Prop} (hx : x.Makes Q) :
    (mint x).Leads s (s₀.Keeps home) fun a s' => (∃ n, s' = { s with next := n }) ∧ Q a :=
  .mint h.next fun n => ⟨⟨n, rfl⟩, hx _⟩

/-! ### Calls -/

section
variable (h : s₀.Keeps home s)
include h

theorem declare_keeps (inFlight : List Expr) {x : String} {v : ValueForm} (hv : v.atHome home = true) :
    (runStep inFlight (.declare x v (home.var x))).Leads s (s₀.Keeps home) fun _ _ => True := by
  refine .bind (h.evalValue inFlight hv) fun w s _ h hw => .bind (store_leads h _) ?_
  rintro st s - - ⟨rfl, hst⟩
  have hholds := h.holds hst
  have hnext := h.setStore hst (hholds.declare hw) (List.prefix_append _ _)
  refine .modify (.modify (.pure (hnext.setVar ⟨w.concrete, ?_⟩) trivial))
  -- the handle has the index after the last
  have hk : home.var x < s.stores.length := (List.getElem?_eq_some_iff.1 hst).1
  rw [tagsAt_set hk, (hholds.declare hw).tags_eq, ← hholds.tags_eq]
  simp [Store.tags, Store.size, Slot.tag, Tracked.ty]

theorem set_keeps (inFlight : List Expr) {x : String} {v : ValueForm} (hv : v.atHome home = true) :
    (runStep inFlight (.set x v (home.var x))).Leads s (s₀.Keeps home) fun _ _ => True := by
  refine .bind (h.evalValue inFlight hv) fun w s _ h hw => .bind (var_leads h x) ?_
  rintro y s - - ⟨rfl, hy⟩
  refine .bind (store_leads h _) ?_
  rintro st s - - ⟨rfl, hst⟩
  refine .bind (h.build (Q := fun st' => st'.Holds (s.tagsAt (home.var x))) fun _ _ hr =>
    (h.holds hst).set (h.var hy) hw hr) ?_
  rintro st' _ - h ⟨⟨n, rfl⟩, hst'⟩
  refine .modify (.bind (P := fun _ _ => True) (.lift ?_ fun _ _ => trivial) fun _ _ _ h _ => .pure h trivial)
  exact h.setStore hst hst' (List.prefix_refl _)

theorem beginThen_keeps (inFlight : List Expr) (scope : String) :
    (runStep inFlight (.beginThen scope (home.scope scope))).Leads s (s₀.Keeps home) fun _ _ => True := by
  refine beginThen_leads h fun c st b c' hc hst hrun => ⟨h.setScope (.conditional c') ?_, trivial⟩
  exact Conditional.Typed.beginThen (h.scope hc) (h.holds hst) hrun

theorem beginElse_keeps (inFlight : List Expr) (scope : String) :
    (runStep inFlight (.beginElse scope (home.scope scope))).Leads s (s₀.Keeps home) fun _ _ => True := by
  refine beginElse_leads h fun c st b c' st' hc hst hrun => ⟨?_, trivial⟩
  obtain ⟨hc', hst'⟩ := Conditional.Typed.beginElse (h.scope hc) (h.holds hst) hrun
  exact (h.setScope (.conditional c') hc').setStore hst hst' (List.prefix_refl _)

theorem finish_keeps (inFlight : List Expr) (scope : String) :
    (runStep inFlight (.finish scope (home.scope scope))).Leads s (s₀.Keeps home) fun _ _ => True := by
  refine finish_leads h fun c st c' st' n hc hst hrun => ?_
  obtain ⟨hc', hst'⟩ := Conditional.Typed.finish (h.scope hc) (h.holds hst) hrun
  exact ((h.next n).setScope (.conditional c') hc').setStore hst hst' (List.prefix_refl _)

theorem unwindOnce_keeps (inFlight : List Expr) (scope : String) {guard : ValueForm}
    (hguard : guard.atHome home = true) :
    (unwindOnce inFlight scope guard (home.scope scope)).Leads s (s₀.Keeps home) fun _ _ => True := by
  refine .bind (h.evalGuard inFlight hguard) fun g s _ h hg => .bind (namedLoop_leads h scope) ?_
  rintro l s - - ⟨rfl, hl⟩
  refine .bind (store_leads h _) ?_
  rintro st s - - ⟨rfl, hst⟩
  refine .bind (h.mint (Loop.Typed.unwind (h.scope hl) (h.holds hst) hg)) ?_
  rintro ⟨more, l', st'⟩ _ - h ⟨⟨n, rfl⟩, hl', hst'⟩
  refine .modify (.modify (.bind (P := fun _ _ => True) (.lift ?_ fun _ _ => trivial) fun _ _ _ h _ => .pure h trivial))
  exact (h.setScope (.loop l') hl').setStore hst hst' (List.prefix_refl _)

theorem track_keeps (inFlight : List Expr) (scope x : String) :
    (runStep inFlight (.track scope x)).Leads s (s₀.Keeps home) fun _ _ => True := by
  refine track_leads h (fun c y c' hc hrun => h.setScope (.conditional c') ?_)
    fun l y l' hl hrun => h.setScope (.loop l') ?_
  · exact Conditional.Typed.track (h.scope hc) hrun
  · exact Loop.Typed.track (h.scope hl) hrun

/-- The beginning of a conditional that runs as a whole. -/
theorem beginNew_keeps (inFlight : List Expr) {guard : ValueForm} (hguard : guard.atHome home = true)
    (track : List String) (k : Nat) :
    (beginNew inFlight guard track k).Leads s (s₀.Keeps home) fun r s' => r.2.Typed (s'.tagsAt k) := by
  refine .bind (h.evalGuard inFlight hguard) fun g s _ h hg => .bind (vars_leads h track) ?_
  rintro vs s - - rfl
  refine .bind (P := fun c s' => s' = s ∧ c.Typed (s.tagsAt k)) (.lift h fun c hc => ⟨rfl, ?_⟩) ?_
  · cases (Conditional.tracking_eq g vs).symm.trans hc
    exact Conditional.typed_of_guard hg _
  rintro c s - - ⟨rfl, hc⟩
  refine .bind (store_leads h k) ?_
  rintro st s - - ⟨rfl, hst⟩
  refine .bind (lift_leads h _) ?_
  rintro b s - - ⟨rfl, hb⟩
  exact .pure h (hc.beginThen (h.holds hst) (Prod.ext hb rfl))

/-- The end of a conditional that runs as a whole. -/
theorem finishOn_keeps {c : Conditional} {k : Nat} (hc : c.Typed (s.tagsAt k)) (answer : Answer) :
    (do
      lift (← finishOn c k).1
      return answer).Leads s (s₀.Keeps home) fun _ _ => True := by
  refine finishOn_leads h (fun _ => .throw h) fun st c' st' n hst hrun => .pure ?_ trivial
  exact (h.next n).setStore hst (hc.finish (h.holds hst) hrun).2 (List.prefix_refl _)

end

/-! ### Steps -/

mutual
/-- **A step keeps all tags and leaves everything well-typed.** -/
theorem runStep_keeps (inFlight : List Expr) (step : Step) (hstep : step.atHome home = true)
    {s₀ s : Session} (h : s₀.Keeps home s) :
    (runStep inFlight step).Leads s (s₀.Keeps home) fun _ _ => True := by
  cases step with
  | bind name v =>
    exact .bind (h.evalValue inFlight hstep) fun w s _ h hw => .modify (.pure (h.setValue hw name) trivial)
  | symbolize name symbol =>
    refine .bind (value_leads h name) fun v s _ h _ => .bind (h.mint (v.symbolize_wellTyped symbol)) ?_
    exact fun w s _ h hw => .modify (.pure (h.setValue hw.2 name) trivial)
  | assign name v =>
    refine .bind (h.evalValue inFlight hstep) fun w s _ h hw => .bind (value_leads h name) fun d s _ h _ => ?_
    refine .bind (h.mint (Tracked.assign_wellTyped d hw)) fun u s _ h hu => ?_
    exact .modify (.pure (h.setValue hu.2.2.2 name) trivial)
  | drop kind name =>
    refine .bind (P := fun _ _ => True) ⟨h.dropName kind name, fun _ _ => trivial⟩ fun _ _ _ h _ => ?_
    exact .pure h trivial
  | newStore => exact .get (.modify (.pure (h.addStore fun _ hslot => nomatch hslot) trivial))
  | cloneStore k =>
    refine .bind (store_leads h k) ?_
    rintro st s - - ⟨rfl, hst⟩
    exact .get (.modify (.pure (h.addStore (h.holds hst).wellTyped) trivial))
  | declare x v k =>
    obtain ⟨hv, rfl⟩ : v.atHome home = true ∧ k = home.var x := by simpa [Step.atHome] using hstep
    exact declare_keeps h inFlight hv
  | set x v k =>
    obtain ⟨hv, rfl⟩ : v.atHome home = true ∧ k = home.var x := by simpa [Step.atHome] using hstep
    exact set_keeps h inFlight hv
  | openIf name guard =>
    refine .bind (h.evalGuard inFlight hstep) fun g s _ h hg => ?_
    exact .modify (.pure (h.setScope (.conditional { guard := g }) (Conditional.typed_of_guard hg [])) trivial)
  | beginThen scope k =>
    obtain rfl : k = home.scope scope := by simpa [Step.atHome] using hstep
    exact beginThen_keeps h inFlight scope
  | beginElse scope k =>
    obtain rfl : k = home.scope scope := by simpa [Step.atHome] using hstep
    exact beginElse_keeps h inFlight scope
  | finish scope k =>
    obtain rfl : k = home.scope scope := by simpa [Step.atHome] using hstep
    exact finish_keeps h inFlight scope
  | openLoop name policy =>
    refine .get (.modify (.pure (h.setScope _ ?_) trivial))
    cases policy with
    | none => exact ⟨fun _ => rfl, fun _ hit => nomatch hit⟩
    | some p => exact ⟨fun _ => rfl, fun _ hit => nomatch hit⟩
  | unwind scope guard k =>
    obtain ⟨hguard, rfl⟩ : guard.atHome home = true ∧ k = home.scope scope := by
      simpa [Step.atHome] using hstep
    exact .bind (unwindOnce_keeps h inFlight scope hguard) fun _ _ _ h _ => .pure h trivial
  | track scope x => exact track_keeps h inFlight scope x
  | cond guard track yes no k =>
    cases no with
    | none =>
      obtain ⟨hguard, hyes⟩ : guard.atHome home = true ∧ Step.allAtHome home yes = true := by
        simpa [Step.atHome] using hstep
      refine .bind (beginNew_keeps h inFlight hguard track k) fun r s _ h hc => h.leads ?_
      -- tags have at most grown since the conditional began, so what it has noted is as good
      refine arm_leads r.1 (fun _ => runSteps_keeps _ yes hyes (.refl h.wellTyped)) (fun _ s' h' => ?_)
        (.refl h.wellTyped)
      exact finishOn_keeps h' (hc.mono (h'.tags k)) _
    | some no =>
      obtain ⟨hguard, hyes, hno⟩ : guard.atHome home = true ∧ Step.allAtHome home yes = true ∧
          Step.allAtHome home no = true := by simpa [Step.atHome] using hstep
      refine .bind (beginNew_keeps h inFlight hguard track k) fun r s _ h hc => h.leads ?_
      refine arm_leads r.1 (fun _ => runSteps_keeps _ yes hyes (.refl h.wellTyped)) (fun _ s' h' => ?_)
        (.refl h.wellTyped)
      refine beginElseOn_leads h' (fun _ => .throw h') fun st b c st' hst hrun => ?_
      obtain ⟨hc', hst'⟩ := (hc.mono (h'.tags k)).beginElse (h'.holds hst) hrun
      have hmid := h'.setStore hst hst' (List.prefix_refl _)
      have hc' := (tagsAt_set (List.getElem?_eq_some_iff.1 hst).1 st').trans hst'.tags_eq ▸ hc'
      refine hmid.leads ?_
      refine arm_leads b (fun _ => runSteps_keeps _ no hno (.refl hmid.wellTyped)) (fun _ s'' h'' => ?_)
        (.refl hmid.wellTyped)
      exact finishOn_keeps h'' (hc'.mono (h''.tags k)) _
  | loop scope guard body k =>
    obtain ⟨hguard, rfl, hbody⟩ : guard.atHome home = true ∧ k = home.scope scope ∧
        Step.allAtHome home body = true := by simpa [Step.atHome] using hstep
    refine .bind (rounds_leads (fun h => ?_) (fun h => runSteps_keeps inFlight body hbody h) _ _ h) ?_
    · exact .bind (unwindOnce_keeps h inFlight scope hguard) fun _ _ _ h _ => .pure h trivial
    · exact fun _ _ _ h _ => .pure h trivial
  | _ => exact (runStep_sheds (.refl s) inFlight rfl).mono (fun _ hk => h.kept hk.toKept) fun _ _ _ hq => hq
theorem runSteps_keeps (inFlight : List Expr) (steps : List Step) (hsteps : Step.allAtHome home steps = true)
    {s₀ s : Session} (h : s₀.Keeps home s) :
    (runSteps inFlight steps).Leads s (s₀.Keeps home) fun _ _ => True := by
  match steps with
  | [] => exact .pure h trivial
  | step :: rest =>
    obtain ⟨hstep, hrest⟩ : step.atHome home = true ∧ Step.allAtHome home rest = true := by
      simpa [Step.allAtHome] using hsteps
    refine .bind (settle_leads (runStep_keeps inFlight step hstep h)) fun a s _ h _ => ?_
    exact .bind (runSteps_keeps inFlight rest hrest h) fun _ s _ h _ => .pure h trivial
end

end

section
variable {home : Homes} {s : Session} (h : s.WellTyped home)
include h

theorem WellTyped.afterAll {steps : List Step} (hsteps : Step.allAtHome home steps = true) :
    s.Keeps home (s.afterAll steps) :=
  (runSteps_keeps [] steps hsteps (.refl h)).1

/-- A variable is declared with the tag of its value. -/
theorem WellTyped.tagsAt_declare {x : String} {v : ValueForm} {w : Tracked} {k : Nat} (hk : k < s.stores.length)
    (hw : ((evalValue [] v).run.run s).1 = .ok w) :
    (s.after (.declare x v k)).tagsAt k = s.tagsAt k ++ [(w.ty, w.concrete)] := by
  have hkept := (h.carries.evaluates v [] s (.refl s)).1
  obtain ⟨t, ht⟩ : ∃ t, (evalValue [] v).run.run s = (.ok w, t) := ⟨_, Prod.ext hw rfl⟩
  rw [ht] at hkept
  have hst : t.stores[k]? = some s.stores[k] := by rw [hkept.stores, List.getElem?_eq_getElem hk]
  have hafter : (s.after (.declare x v k)).stores = t.stores.set k (s.stores[k].declare w).2 := by
    show ((evalValue [] v >>= fun w => _ : Run Answer).run.run s).2.stores = _
    rw [Run.run_bind, ht]
    show ((store k >>= fun st => _ : Run Answer).run.run t).2.stores = _
    rw [Run.run_bind, Run.run_store hst]
    rfl
  rw [tagsAt, tagsAt, storeAt, storeAt, hafter, hkept.stores, List.getElem?_set_self hk, List.getElem?_eq_getElem hk]
  simp [Store.tags, Store.declare, Slot.tag, Tracked.ty]

end

/-- **Tags are fixed, and companions are well-typed.** Take any state of a run in which handles and scopes
keep to their stores and no value takes a companion from outside, and any later state. Every variable is
still there with the type and the concreteness that it had, and one that is declared in between has
those of its value; every handle has the type of its variable; and the companion of every value and every
variable is a well-typed expression of the type of its data. -/
theorem tags_fixed (config : Config) (home : Homes) {before later : List Step}
    (hbefore : Step.allAtHome home before = true) (hlater : Step.allAtHome home later = true) :
    let s := (ofConfig config).afterAll before
    let s' := s.afterAll later
    (∀ k, s.tagsAt k <+: s'.tagsAt k) ∧
      (∀ x v w, v.atHome home = true → ((evalValue [] v).run.run s).1 = .ok w →
        home.var x < s.stores.length → s.tagsAt (home.var x) ++ [(w.ty, w.concrete)] <+:
          (s.afterAll (.declare x v (home.var x) :: later)).tagsAt (home.var x)) ∧
      (∀ x ∈ s'.vars, x.2.Names (s'.tagsAt (home.var x.1))) ∧
      (∀ v ∈ s'.values, ∀ e, v.2.companion = some e → e.HasTy v.2.ty ∧ e.ty = v.2.ty) ∧
      ∀ st ∈ s'.stores, ∀ slot ∈ st.slots, ∀ e, slot.companion = some e →
        e.HasTy slot.data.ty ∧ e.ty = slot.data.ty := by
  intro s s'
  have hs : s.WellTyped home := ((ofConfig_wellTyped home config).afterAll hbefore).wellTyped
  obtain ⟨⟨hvalues, hstores, hvars, -⟩, htags⟩ := hs.afterAll hlater
  refine ⟨htags, fun x v w hv hw hx => ?_, hvars, fun v hv e he => ?_, fun st hst slot hslot e he => ?_⟩
  · have hdeclare := (declare_keeps (x := x) (.refl hs) [] hv).1
    rw [afterAll_cons, ← hs.tagsAt_declare hx hw]
    exact (hdeclare.wellTyped.afterAll hlater).tags _
  · have hty := hvalues v hv e he
    exact ⟨hty, hty.ty_eq⟩
  · have hty := hstores st hst slot hslot e he
    exact ⟨hty, hty.ty_eq⟩

/-- Two stores, each with variables of its own. -/
def twoStores : List Step :=
  [.newStore, .declare "x" (.any "X" .int) 0, .declare "c" (.cast .char (.get "x" 0)) 0,
    .declare "b" (.new (.bool true)) 1]

/-- Variables of one store are joined in a conditional that assigns across types, and a variable of the
other is joined in a loop inside one of its arms. -/
def crossTypes : List Step :=
  [.openLoop "l" (some (.bounded 2)), .track "l" "b",
    .cond (.lt (.get "x" 0) (.get "c" 0)) ["x", "c"]
      [.set "c" (.add (.get "x" 0) (.add (.get "c" 0) (.new (.int 7)))) 0,
        .loop "l" (.not (.any "G" .bool)) [.set "b" (.get "x" 0) 1] 1]
      (some [.set "x" (.get "b" 1) 0]) 0]

/-- One variable belongs to the second store, and so does the loop. -/
def twoHomes : Homes := ⟨fun x => if x = "b" then 1 else 0, fun _ => 1⟩

theorem crossTypes_tags_fixed :
    let s := (ofConfig {}).afterAll twoStores
    let s' := s.afterAll crossTypes
    (Step.allAtHome twoHomes twoStores = true ∧ Step.allAtHome twoHomes crossTypes = true) ∧
      [(.int, false), (.char, false)] <+: s'.tagsAt 0 ∧ [(.bool, true)] <+: s'.tagsAt 1 ∧
      [(.int, false), (.char, false), (.bool, false)] <+:
        (s.afterAll (.declare "d" (.lt (.get "c" 0) (.get "x" 0)) 0 :: crossTypes)).tagsAt 0 ∧
      ∀ st ∈ s'.stores, ∀ slot ∈ st.slots, ∀ e, slot.companion = some e → e.ty = slot.data.ty := by
  have hbefore : Step.allAtHome twoHomes twoStores = true := by decide +kernel
  have hlater : Step.allAtHome twoHomes crossTypes = true := by decide +kernel
  have hzero : ((ofConfig {}).afterAll twoStores).tagsAt 0 = [(.int, false), (.char, false)] := by
    decide +kernel
  have hone : ((ofConfig {}).afterAll twoStores).tagsAt 1 = [(.bool, true)] := by decide +kernel
  have hvalue : ((evalValue [] (.lt (.get "c" 0) (.get "x" 0))).run.run
      ((ofConfig {}).afterAll twoStores)).1.toOption.map (fun w => (w.ty, w.concrete)) = some (.bool, false) := by
    decide +kernel
  obtain ⟨w, hw, htag⟩ := Option.map_eq_some_iff.1 hvalue
  obtain ⟨htags, hdeclared, -, -, hslots⟩ := tags_fixed {} twoHomes hbefore hlater
  have hd := hdeclared "d" _ w (by decide +kernel) (eq_ok_of_toOption hw) (by decide +kernel)
  rw [show twoHomes.var "d" = 0 by decide +kernel, hzero, htag] at hd
  exact ⟨⟨hbefore, hlater⟩, hzero ▸ htags 0, hone ▸ htags 1, hd,
    fun st hst slot hslot e he => (hslots st hst slot hslot e he).2⟩

/-- A scope that notes in one store and restores in another gives a variable another tag. -/
def strayScope : List Step :=
  [.newStore, .declare "x" (.any "X" .int) 0, .declare "y" (.new (.bool true)) 1,
    .openIf "a" (.any "A" .bool), .track "a" "x", .beginThen "a" 0, .set "y" (.new (.bool false)) 1,
    .beginElse "a" 1]

example : ((ofConfig {}).afterAll (strayScope.take 7)).tagsAt 1 = [(.bool, true)] ∧
    ((ofConfig {}).afterAll strayScope).tagsAt 1 = [(.int, false)] := by
  decide +kernel

end Session

end Symex
