import Symex.Proofs.SessionAgreement

/-!
Coherence: companions denote the data, under an environment that recalls what each free variable stood
for when it came into being. Every operator, assignment, conditional and loop keeps this, at all types.
One thing can break it: a read through a handle of another type, such as one of another store, converts
the data and leaves the companion as it is.
-/

namespace Symex

/-- The companion, if there is one, denotes the data. -/
def Dual.Coherent (env : Env) (d : Dual) : Prop := d.value env = d.data

instance (env : Env) (d : Dual) : Decidable (d.Coherent env) := inferInstanceAs (Decidable (_ = _))

theorem Slot.agrees_under {env : Env} {s : Slot} :
    s.Agrees (.under env) ↔ s.toDual.Coherent env := by
  constructor
  · intro h
    exact h env rfl
  · rintro h _ rfl
    exact h

namespace Session

/-- Whether an environment recalls the variable that a form makes free: its data are zero. -/
def recallsPart (env : Env) : ValueForm → Bool
  | .any name ty => env.value name ty = .zero ty
  | _ => true

/-- Whether an environment recalls the data of what a step makes free. A leaf that is given to a value
that is not concrete stands for the data it has then. -/
def recalls (env : Env) (s : Session) (step : Step) : Bool :=
  (step.forms.all fun v => v.parts.all (recallsPart env)) &&
    match step with
    | .symbolize name symbol =>
      match s.values.find? name with
      | some v => v.concrete || env.value symbol v.ty = v.data
      | none => true
    | _ => true

section
variable {env : Env} {s : Session} {step : Step}

theorem fitForm_of_recalls (hplain : step.plain = true) (hreads : s.readsFit step = true)
    (h : s.recalls env step = true) {v : ValueForm} (hv : v ∈ step.forms) :
    s.FitForm (.under env) v := by
  refine fitForm_of_plain hplain hreads hv ?_
  rintro name ty hp _ rfl
  obtain ⟨hforms, -⟩ := Bool.and_eq_true_iff.1 h
  have hpart : recallsPart _ (.any name ty) = true :=
    List.all_eq_true.1 (List.all_eq_true.1 hforms v hv) _ hp
  simpa [recallsPart] using hpart

/-- Under one environment, joins keep agreement and assignments are relied on alike. -/
theorem fit_of_recalls (hs : s.Agrees (.under env)) (hplain : step.plain = true)
    (hreads : s.readsFit step = true) (h : s.recalls env step = true) : s.Fit (.under env) step := by
  have hform := fun v => fitForm_of_recalls hplain hreads h (v := v)
  cases step with
  | bind name v => exact hform v (by simp [Step.forms])
  | declare x v store => exact hform v (by simp [Step.forms])
  | openIf name v => exact hform v (by simp [Step.forms])
  | assign name v => exact ⟨hform v (by simp [Step.forms]), fun _ _ _ _ _ _ henv => henv⟩
  | set x v store =>
    exact ⟨hform v (by simp [Step.forms]), fun _ _ _ _ _ _ _ _ _ _ henv => henv⟩
  | symbolize name symbol =>
    rintro v hv hc _ rfl
    simpa [recalls, Step.forms, hv, hc] using h
  | finish scope store =>
    intro c st hc hst c' st' n hr
    exact (Conditional.finish_agrees (hs.scope hc) (hs.store hst) hr).2 (Reliance.uniform_under env)
  | unwind scope v store =>
    refine ⟨hform v (by simp [Step.forms]), fun g s' hrun l st hl hst => ?_⟩
    obtain ⟨hkept, hg⟩ := evalGuard_evaluates hs v
    rw [hrun] at hkept hg
    have hs' := hkept.agrees hs
    have hg := hg g rfl (hform v (by simp [Step.forms]))
    exact (Loop.unwind_agrees (hs'.scope hl) (hs'.store hst) hg _).2 (Reliance.uniform_under env)
  | cond guard track yes no store => cases hplain
  | loop scope guard body store => cases hplain
  | _ => trivial

end

/-- **Data and companions agree in every run** whose reads have the types of what is there, under every
environment that recalls what was made free. In a state that such a run reaches, just the reads of this
kind are coherent. -/
theorem run_coherent (env : Env) (config : Config) (steps : List Step)
    (h : along (fun s step => step.plain && s.recalls env step && s.readsFit step) (.ofConfig config)
      steps = true) :
    (∀ e ∈ ((ofConfig config).afterAll steps).values, e.2.toDual.Coherent env) ∧
      (∀ e ∈ ((ofConfig config).afterAll steps).scopes, ∀ c, e.2 = .conditional c →
        c.guard.toDual.Coherent env) ∧
      ∀ st ∈ ((ofConfig config).afterAll steps).stores,
        (∀ s ∈ st.slots, s.toDual.Coherent env) ∧
        ∀ x v, st.get x = .ok v → (v.toDual.Coherent env ↔ st.readsAs x = true) := by
  have hs : ((ofConfig config).afterAll steps).Agrees (.under env) := by
    refine invariant_afterAll (fun s step hs hok => ?_) (ofConfig_agrees _ config) h
    obtain ⟨⟨hplain, hrec⟩, hreads⟩ :
        (step.plain = true ∧ s.recalls env step = true) ∧ s.readsFit step = true := by
      simpa using hok
    exact hs.after (fit_of_recalls hs hplain hreads hrec)
  refine ⟨fun e he => Slot.agrees_under.1 (hs.values e he), fun e he c hc => ?_, fun st hst => ⟨?_, ?_⟩⟩
  · have hscope := hs.scopes e he
    rw [hc] at hscope
    exact Slot.agrees_under.1 (Conditional.Agrees.guard hscope)
  · intro s hslot
    exact Slot.agrees_under.1 (hs.stores st hst s hslot)
  · intro x v hv
    exact Slot.agrees_under.symm.trans (Store.get_agrees_iff (hs.stores st hst) hv ⟨env, rfl⟩)

/-- A counter that is raised in a conditional and in a loop, and a leaf that is given to a free value. -/
def countedRun : List Step :=
  [.declare "i" (.any "I" .int) 0,
    .openIf "c" (.lt (.get "i" 0) (.new (.int 5))), .track "c" "i", .beginThen "c" 0,
    .set "i" (.add (.get "i" 0) (.new (.char 1))) 0, .beginElse "c" 0, .finish "c" 0,
    .openLoop "l" (some (.bounded 1)), .track "l" "i", .unwind "l" (.lt (.get "i" 0) (.new (.int 7))) 0,
    .set "i" (.add (.get "i" 0) (.new (.int 2147483647))) 0,
    .unwind "l" (.lt (.get "i" 0) (.new (.int 7))) 0,
    .bind "n" (.any "A" .short), .assign "n" (.new (.int 65537)), .symbolize "n" "B",
    .bind "v" (.cast .char (.add (.get "i" 0) (.copy "n")))]

/-- What the free variables of the run stood for. -/
def countedEnv : Env := .ofWords fun name => if name = "B" then 1 else 0

theorem countedRun_coherent :
    along (fun s step => step.plain && s.recalls countedEnv step && s.readsFit step) (.ofConfig {})
        countedRun = true ∧
      (((ofConfig {}).afterAll countedRun).values.find? "v").map (fun v => (v.isSymbolic, v.data)) =
        some (true, .char 1) ∧
      ∀ e ∈ ((ofConfig {}).afterAll countedRun).values, e.2.toDual.Coherent countedEnv :=
  ⟨by decide +kernel, by decide +kernel, (run_coherent _ _ _ (by decide +kernel)).1⟩

/-- A variable is read from another store, in which its index stands for a variable of another type. -/
def foreignRead : List Step :=
  [.declare "x" (.new (.char 0)) 0, .newStore, .bind "n" (.new (.int 256)), .symbolize "n" "N",
    .declare "y" (.copy "n") 1, .bind "v" (.get "x" 1)]

/-- A read through the handle of another store breaks coherence. -/
theorem foreignRead_incoherent :
    along (fun s step => step.plain && s.recalls (.ofWords fun _ => 0) step) (.ofConfig {})
        foreignRead = true ∧
      ∃ e ∈ ((ofConfig {}).afterAll foreignRead).values, ¬ e.2.toDual.Coherent (.ofWords fun _ => 0) := by
  decide +kernel

end Session

end Symex
