import Symex.Proofs.SessionAgreement

/-!
Arms that are left out. A scope trusts a concrete guard: it does not run the arm that the data of the
guard exclude, and joins nothing where it runs one. The trust is justified if what is concrete does not
depend on free variables. Operators see to this, but an assignment keeps the concreteness of its
destination and a join that of the arm that the data take. Where neither marks as concrete what was not,
a trusted guard denotes its data under every environment.
-/

namespace Symex.Session

/-! ### Where concreteness is kept -/

/-- The states of variables that a scope has noted. -/
def Scope.slots : Scope → List Slot
  | .conditional c => c.entry ++ c.thenArm
  | .loop l => l.iterations.flatMap (·.entry)

/-- The states of variables, in the stores and as scopes have noted them. -/
def slots (s : Session) : List Slot :=
  s.stores.flatMap (·.slots) ++ s.scopes.flatMap (·.2.slots)

theorem Agrees.slots {R : Reliance} {s : Session} (h : s.Agrees R) : ∀ x ∈ s.slots, x.Agrees R := by
  intro x hx
  rcases List.mem_append.1 hx with hx | hx
  · obtain ⟨st, hst, hx⟩ := List.mem_flatMap.1 hx
    exact h.stores st hst x hx
  · obtain ⟨e, he, hx⟩ := List.mem_flatMap.1 hx
    have hscope := h.scopes e he
    revert hscope hx
    cases e.2 with
    | conditional c =>
      intro hx hc
      rcases List.mem_append.1 hx with hx | hx
      · exact Conditional.Agrees.entry hc x hx
      · exact Conditional.Agrees.thenArm hc x hx
    | loop l =>
      intro hx hl
      obtain ⟨it, hit, hx⟩ := List.mem_flatMap.1 hx
      exact (hl it hit).2 x hx

/-- Whether what is concrete in a store has been so before, with the same data and companion. -/
def hadConcrete (s : Session) (st : Store) : Bool :=
  st.slots.all fun x => !x.concrete || s.slots.any fun y => y.concrete && y.toDual = x.toDual

theorem agrees_of_hadConcrete {s : Session} (hs : s.Agrees .concrete) {st : Store}
    (h : s.hadConcrete st = true) : st.Agrees .concrete := by
  intro x hx env hc
  have hc : x.concrete = true := hc
  have hold := List.all_eq_true.1 h x hx
  obtain ⟨y, hy, hyc, heq⟩ : ∃ y ∈ s.slots, y.concrete = true ∧ y.toDual = x.toDual := by
    simpa [hc] using hold
  rw [← heq]
  exact hs.slots y hy env hyc

/-- Whether a step marks nothing as concrete that was not: an assignment to a concrete destination has
a concrete source, and a join leaves no variable concrete that it gave a new companion. -/
def keepsConcrete (s : Session) : Step → Bool
  | .assign name v =>
    match (evalValue [] v).run.run s with
    | (.ok w, s') => (s'.values.find? name).all fun d => !d.concrete || w.concrete
    | (.error _, _) => true
  | .set x v store =>
    match (evalValue [] v).run.run s with
    | (.ok w, s') =>
      match s'.vars.find? x, s'.stores[store]? with
      | some y, some st => (st.slots[y.index]?).all fun d => !d.concrete || w.concrete
      | _, _ => true
    | (.error _, _) => true
  | .finish scope store =>
    match s.scopes.find? scope, s.stores[store]? with
    | some (.conditional c), some st =>
      match c.finish st s.next with
      | ((.ok (), _, st'), _) => s.hadConcrete st'
      | ((.error _, _, _), _) => true
    | _, _ => true
  | .unwind scope v store =>
    match (evalGuard [] v).run.run s with
    | (.ok g, s') =>
      match s'.scopes.find? scope, s'.stores[store]? with
      | some (.loop l), some st => s'.hadConcrete (l.unwind st g s'.next).1.2.2
      | _, _ => true
    | (.error _, _) => true
  | _ => true

section
variable {s : Session} {step : Step}

theorem fit_of_keepsConcrete (hs : s.Agrees .concrete) (hplain : step.plain = true)
    (hreads : s.readsFit step = true) (h : s.keepsConcrete step = true) :
    s.Fit .concrete step := by
  have hform : ∀ v ∈ step.forms, s.FitForm .concrete v := fun v hv =>
    fitForm_of_plain hplain hreads hv fun _ _ _ _ h => nomatch h
  cases step with
  | bind name v => exact hform v (by simp [Step.forms])
  | declare x v store => exact hform v (by simp [Step.forms])
  | openIf name v => exact hform v (by simp [Step.forms])
  | assign name v =>
    refine ⟨hform v (by simp [Step.forms]), fun w s' hrun d hd env hc => ?_⟩
    have hc : d.concrete = true := hc
    show w.concrete = true
    simpa [keepsConcrete, hrun, hd, hc] using h
  | set x v store =>
    refine ⟨hform v (by simp [Step.forms]), fun w s' hrun y st d hy hst hd env hc => ?_⟩
    have hc : d.concrete = true := hc
    have hd := Store.slot_eq_ok_iff.1 hd
    show w.concrete = true
    simpa [keepsConcrete, hrun, hy, hst, hd, hc] using h
  | symbolize name symbol => exact fun _ _ _ _ h => nomatch h
  | finish scope store =>
    intro c st hc hst c' st' n hr
    refine agrees_of_hadConcrete hs ?_
    simpa [keepsConcrete, hc, hst, hr] using h
  | unwind scope v store =>
    refine ⟨hform v (by simp [Step.forms]), fun g s' hrun l st hl hst => ?_⟩
    obtain ⟨hkept, -⟩ := evalGuard_evaluates hs v
    rw [hrun] at hkept
    refine agrees_of_hadConcrete (hkept.agrees hs) ?_
    simpa [keepsConcrete, hrun, hl, hst] using h
  | cond guard track yes no store => cases hplain
  | loop scope guard body store => cases hplain
  | _ => trivial

end

/-! ### Trusted guards -/

/-- The guard of a named conditional. -/
def guardOf (s : Session) (scope : String) : Option Tracked :=
  match s.scopes.find? scope with
  | some (.conditional c) => some c.guard
  | _ => none

/-- The answer to a step, if it is yes or no. -/
def flagOf (s : Session) (step : Step) : Option Bool :=
  match ((runStep [] step).run.run s).1 with
  | .ok (.flag b) => some b
  | _ => none

/-- The guards that a step relies on to leave something out: an arm is not to be run, a join selects an
arm outright, a loop stops, or an iteration is joined without a choice. -/
inductive Trusts (s : Session) : Step → Tracked → Prop
  | beginThen {scope : String} {store : Nat} {g : Tracked} (hg : s.guardOf scope = some g)
      (h : s.flagOf (.beginThen scope store) = some false) : Trusts s (.beginThen scope store) g
  | beginElse {scope : String} {store : Nat} {g : Tracked} (hg : s.guardOf scope = some g)
      (h : s.flagOf (.beginElse scope store) = some false) : Trusts s (.beginElse scope store) g
  | finish {scope : String} {store : Nat} {g : Tracked} (hg : s.guardOf scope = some g)
      (h : g.concrete = true) : Trusts s (.finish scope store) g
  | stop {scope : String} {v : ValueForm} {store : Nat} {g : Tracked} {s' : Session}
      (hg : (evalGuard [] v).run.run s = (.ok g, s')) (h : g.concrete = true)
      (hfalse : g.isTrue = false) : Trusts s (.unwind scope v store) g
  | join {scope : String} {v : ValueForm} {store : Nat} {l : Loop} {it : Iteration}
      (hl : s.scopes.find? scope = some (.loop l)) (hit : it ∈ l.iterations)
      (h : it.guard.concrete = true) : Trusts s (.unwind scope v store) it.guard

section
variable {s : Session} {g : Tracked} {scope : String}

theorem exists_of_guardOf (h : s.guardOf scope = some g) :
    ∃ c, s.scopes.find? scope = some (.conditional c) ∧ c.guard = g := by
  unfold guardOf at h
  split at h
  · next c hc => exact ⟨c, hc, Option.some.inj h⟩
  · cases h

theorem flag_of_flagOf {step : Step} {b : Bool} (h : s.flagOf step = some b) :
    ((runStep [] step).run.run s).1 = .ok (.flag b) := by
  unfold flagOf at h
  split at h
  · next hb =>
    obtain rfl := Option.some.inj h
    exact hb
  · cases h

/-- A call that begins an arm answers that it can be taken, unless the guard is concrete. -/
theorem beginArm_leads {c : Conditional} {step : Step} {store : Nat}
    (hstep : step = .beginThen scope store ∨ step = .beginElse scope store)
    (hc : s.scopes.find? scope = some (.conditional c)) :
    (runStep [] step).Leads s (fun _ => True) fun a _ => ∃ b, a = .flag (!c.guard.concrete || b) := by
  rcases hstep with rfl | rfl
  · refine beginThen_leads trivial fun c' st b c'' hc' _ hrun => ⟨trivial, c.guard.isTrue, ?_⟩
    obtain rfl : c = c' := by simpa [hc] using hc'
    rw [(Conditional.beginThen_eq_ok hrun).1]
  · refine beginElse_leads trivial fun c' st b c'' st' hc' _ hrun => ⟨trivial, !c.guard.isTrue, ?_⟩
    obtain rfl : c = c' := by simpa [hc] using hc'
    rw [(Conditional.beginElse_eq_ok hrun).1]

/-- A refused arm has a concrete guard. -/
theorem concrete_of_refused {step : Step} {store : Nat}
    (hstep : step = .beginThen scope store ∨ step = .beginElse scope store)
    (hg : s.guardOf scope = some g) (h : s.flagOf step = some false) : g.concrete = true := by
  obtain ⟨c, hc, rfl⟩ := exists_of_guardOf hg
  obtain ⟨b, hb⟩ := (beginArm_leads hstep hc).2 _ (flag_of_flagOf h)
  injection hb with hb
  cases hconcrete : c.guard.concrete with
  | true => rfl
  | false => simp [hconcrete] at hb

/-- What is trusted is concrete. -/
theorem Trusts.concrete {step : Step} (h : Trusts s step g) : g.concrete = true := by
  cases h with
  | beginThen hg h => exact concrete_of_refused (.inl rfl) hg h
  | beginElse hg h => exact concrete_of_refused (.inr rfl) hg h
  | finish hg h => exact h
  | stop hg h hfalse => exact h
  | join hl hit h => exact h

/-- What is trusted agrees with its companion, as everything in the session does. -/
theorem Trusts.agrees {R : Reliance} (hs : s.Agrees R) {step : Step}
    (hforms : ∀ v ∈ step.forms, s.FitForm R v) (h : Trusts s step g) : g.toSlot.Agrees R := by
  have hguard : ∀ scope, s.guardOf scope = some g → g.toSlot.Agrees R := by
    intro scope hg
    obtain ⟨c, hc, rfl⟩ := exists_of_guardOf hg
    exact Conditional.Agrees.guard (hs.scope hc)
  cases h with
  | beginThen hg h => exact hguard _ hg
  | beginElse hg h => exact hguard _ hg
  | finish hg h => exact hguard _ hg
  | @stop scope v store g s' hg h hfalse =>
    obtain ⟨-, hv⟩ := evalGuard_evaluates hs v
    rw [hg] at hv
    exact hv g rfl (hforms v (by simp [Step.forms]))
  | join hl hit h => exact ((hs.scope hl : Loop.Agrees R _) _ hit).1

end

/-- **No feasible arm is left out** in a run that marks nothing as concrete that was not: a guard that a
step trusts denotes its data under every environment. -/
theorem trusted_guard_constant (config : Config) (steps : List Step)
    (h : along (fun s step => step.plain && s.readsFit step && s.keepsConcrete step)
      (.ofConfig config) steps = true) (step : Step) (hplain : step.plain = true)
    (hreads : ((ofConfig config).afterAll steps).readsFit step = true) (g : Tracked)
    (hg : Trusts ((ofConfig config).afterAll steps) step g) (env : Env) (e : Expr)
    (he : g.companion = some e) : e.value env = g.data := by
  have hs : ((ofConfig config).afterAll steps).Agrees .concrete := by
    refine invariant_afterAll (fun s step hs hok => ?_) (ofConfig_agrees _ config) h
    obtain ⟨⟨hplain, hreads⟩, hkeeps⟩ :
        (step.plain = true ∧ s.readsFit step = true) ∧ s.keepsConcrete step = true := by
      simpa using hok
    exact hs.after (fit_of_keepsConcrete hs hplain hreads hkeeps)
  have hagrees := hg.agrees hs fun v hv => fitForm_of_plain hplain hreads hv fun _ _ _ _ h => nomatch h
  rw [← Dual.value_some he]
  exact hagrees env hg.concrete

/-- A named number is compared, beside a free variable that is joined. -/
def namedGuard : List Step :=
  [.declare "i" (.any "I" .int) 0,
    .openIf "b" (.lt (.get "i" 0) (.new (.int 5))), .track "b" "i", .beginThen "b" 0,
    .set "i" (.add (.get "i" 0) (.new (.int 1))) 0, .finish "b" 0,
    .bind "n" (.new (.int 3)), .symbolize "n" "N", .assign "n" (.add (.copy "n") (.new (.int 4))),
    .openIf "c" (.lt (.copy "n") (.new (.int 2)))]

theorem namedGuard_constant :
    (((ofConfig {}).afterAll namedGuard).guardOf "c").map (fun g => (g.isSymbolic, g.data)) =
        some (true, .bool false) ∧
      ∀ g, ((ofConfig {}).afterAll namedGuard).guardOf "c" = some g →
        ∀ env e, g.companion = some e → e.value env = g.data := by
  refine ⟨by decide +kernel, fun g hg env e he => ?_⟩
  refine trusted_guard_constant {} namedGuard (by decide +kernel) (.beginThen "c" 0) (by decide)
    (by decide +kernel) g (.beginThen hg ?_) env e he
  decide +kernel

/-! ### Feasible arms that are left out -/

/-- Whether plain steps, each allowed where it is taken, lead to a conditional that refuses its first arm
though its guard holds under an environment. -/
def refusesFeasible (allowed : Session → Step → Bool) (env : Env) (scope : String) (steps : List Step) :
    Bool :=
  along (fun s step => step.plain && allowed s step) (.ofConfig {}) steps &&
    ((ofConfig {}).afterAll steps).flagOf (.beginThen scope 0) = some false &&
    (((ofConfig {}).afterAll steps).guardOf scope).any fun g => (g.toDual.value env).isTrue

/-- A free variable is assigned to a concrete value. -/
def assignedGuard : List Step :=
  [.bind "g" (.new (.bool false)), .assign "g" (.any "A" .bool), .openIf "c" (.copy "g")]

/-- A free variable is stored in a concrete variable. -/
def storedGuard : List Step :=
  [.declare "g" (.new (.bool false)) 0, .set "g" (.any "A" .bool) 0, .openIf "c" (.get "g" 0)]

/-- A concrete variable is joined under a free guard. -/
def joinedGuard : List Step :=
  [.declare "g" (.new (.bool false)) 0, .openIf "b" (.any "A" .bool), .track "b" "g", .beginThen "b" 0,
    .set "g" (.new (.bool true)) 0, .finish "b" 0, .openIf "c" (.get "g" 0)]

/-- A named number in another store is read through the handle of a narrower variable, for which it is zero. -/
def foreignGuard : List Step :=
  [.declare "x" (.new (.char 0)) 0, .newStore, .bind "n" (.new (.int 256)), .symbolize "n" "N",
    .declare "y" (.copy "n") 1, .openIf "c" (.cast .bool (.get "x" 1))]

/-- A conditional refuses a feasible arm after an assignment or a join that marks as concrete what was not,
also if reads have fitting types, and after a read of another type, also if nothing is marked. -/
theorem marked_guard_refuses_feasible :
    [assignedGuard, storedGuard, joinedGuard].all (refusesFeasible readsFit (.ofWords fun _ => 1) "c") = true ∧
    refusesFeasible keepsConcrete (.ofWords fun _ => 1) "c" foreignGuard = true := by
  decide +kernel

end Symex.Session
