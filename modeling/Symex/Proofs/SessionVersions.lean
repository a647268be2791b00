import Symex.Proofs.Agreement
import Symex.Proofs.SessionFrames
import Symex.Proofs.Versions

/-!
Versions identify states. Whatever calls are made on a store, and in whatever order scopes are opened
and closed, a variable keeps its place, its version never decreases, and as long as its version stays,
so does the variable (`Evolves`). Scopes write back states that they noted earlier, so what each call
leaves is compared with what it found, not with what was there between two of its writes.
-/

namespace Symex

namespace Store

/-! ### How a store evolves -/

/-- Variables stay declared, no version is smaller, and a variable with the same version is the same. -/
structure Evolves (st st' : Store) : Prop where
  size_le : st.size ≤ st'.size
  version_le : ∀ i < st.size, (st.state i).version ≤ (st'.state i).version
  state_eq : ∀ i < st.size, (st'.state i).version = (st.state i).version → st'.state i = st.state i

theorem Later.evolves {st st' : Store} (h : st.Later st') : st.Evolves st' :=
  ⟨Nat.le_of_eq h.size_eq.symm, fun i _ => h.version_le i, fun i _ => h.state_eq i⟩

theorem Evolves.refl (st : Store) : st.Evolves st := (Later.refl st).evolves

theorem Evolves.trans {a b c : Store} (h : a.Evolves b) (h' : b.Evolves c) : a.Evolves c := by
  have hsize := h.size_le
  refine ⟨Nat.le_trans hsize h'.size_le, fun i hi => ?_, fun i hi hv => ?_⟩
  · exact Nat.le_trans (h.version_le i hi) (h'.version_le i (by omega))
  · have h1 := h.version_le i hi
    have h2 := h'.version_le i (by omega)
    rw [h'.state_eq i (by omega) (by omega), h.state_eq i hi (by omega)]

theorem empty_evolves (st : Store) : Evolves {} st :=
  ⟨Nat.zero_le _, fun _ h => absurd h (Nat.not_lt_zero _), fun _ h => absurd h (Nat.not_lt_zero _)⟩

/-- A variable whose version has grown since an earlier store may be anything. -/
theorem Later.put {st₀ st : Store} (h : st₀.Later st) {i : Nat} {s : Slot} (hi : i < st₀.size)
    (hv : (st₀.state i).version < s.version) : st₀.Later (st.put i s) := by
  refine ⟨(size_put _ _ _).trans h.size_eq, fun j => ?_, fun j hj => ?_⟩
  · by_cases hij : i = j
    · subst hij
      rw [state_put_self (by rw [h.size_eq]; exact hi)]
      omega
    · rw [state_put_of_ne hij]
      exact h.version_le j
  · by_cases hij : i = j
    · subst hij
      rw [state_put_self (by rw [h.size_eq]; exact hi)] at hj
      omega
    · rw [state_put_of_ne hij] at hj ⊢
      exact h.state_eq j hj

/-! ### Declarations and assignments -/

theorem declare_evolves (st : Store) (v : Tracked) : st.Evolves (st.declare v).2 := by
  have hstate : ∀ i < st.size, (st.declare v).2.state i = st.state i := by
    intro i hi
    have hi : i < st.slots.length := hi
    simp [state, declare, List.getElem?_append_left hi]
  refine ⟨?_, fun i hi => Nat.le_of_eq ?_, fun i hi _ => hstate i hi⟩
  · simp [declare, size]
  · rw [hstate i hi]

/-- An assignment leaves the store as it is, or makes the version of one variable greater. -/
theorem set_later {st st' : Store} {x : Var} {v : Tracked} {n n' : Nat}
    (h : st.set x v n = .ok (st', n')) : st.Later st' := by
  cases hs : st.slot x.index with
  | error e =>
    rw [show st.set x v n = .error e by unfold set get; rw [hs]; rfl] at h
    cases h
  | ok s =>
    obtain ⟨hi, hstate⟩ := state_of_slot hs
    rw [set_eq hs] at h
    split at h
    · cases h
      exact .refl st
    · cases h
      refine later_put hi ?_
      rw [hstate]
      show s.version < max (s.version + 1) v.version
      omega

end Store

open Store (Later)

/-! ### Conditionals -/

theorem joinArms_version (g : Tracked) (e : Expr) (yes no : Slot) (version : Nat) :
    (joinArms g e yes no version).Makes (·.version = version) := by
  unfold joinArms
  generalize (if g.isTrue then yes else no) = taken
  dsimp only
  split
  · exact .pure rfl
  · exact fun _ => rfl

namespace Conditional

variable {c c' : Conditional} {st st' : Store}

/-- What is put back is a version ahead of what an arm has left. -/
theorem restore_later {rows : List (Nat × Slot × Slot)}
    (hrows : ∀ r ∈ rows, r.1 < st.size ∧ (st.state r.1).version ≤ r.2.2.version) :
    st.Later (restore st rows).2 := by
  refine restore_induct (.refl st) fun r hr st' _ h => h.put (hrows r hr).1 ?_
  have := (hrows r hr).2
  show (st.state r.1).version < r.2.2.version + 1
  omega

theorem beginElse_later {b : Bool} (h : c.beginElse st = (.ok b, c', st')) : st.Later st' := by
  obtain ⟨-, -, hlt, -, rfl⟩ := beginElse_eq_ok h
  refine restore_later ?_
  rintro ⟨i, before, after⟩ hr
  obtain ⟨j, hj⟩ := List.mem_iff_getElem?.1 hr
  obtain ⟨hvar, hj⟩ := List.getElem?_zip_eq_some.1 hj
  obtain ⟨-, hafter⟩ := List.getElem?_zip_eq_some.1 hj
  obtain rfl : st.state i = after := by simpa [hvar] using hafter
  exact ⟨hlt i (List.mem_of_getElem? hvar), Nat.le_refl _⟩

/-- What a join leaves is a version ahead of both arms. -/
theorem joinAll_later {g : Tracked} {e : Expr} {rows : List (Nat × Slot × Slot × Slot)}
    (hrows : ∀ r ∈ rows, r.1 < st.size ∧
      (st.state r.1).version ≤ max r.2.2.1.version r.2.2.2.version) :
    (joinAll g e st rows).Makes fun r => st.Later r.2 := by
  refine joinAll_induct (.refl st) fun r hr => ?_
  refine (joinArms_version g e r.2.2.1 r.2.2.2 _).mono fun s hs st' _ h => h.put (hrows r hr).1 ?_
  have := (hrows r hr).2
  omega

theorem finish_later {n n' : Nat} (h : c.finish st n = ((.ok (), c', st'), n')) : st.Later st' := by
  obtain ⟨yes, no, harms, -, rfl, -⟩ := finish_eq_ok h
  obtain ⟨hlt, harm⟩ := arms_eq_ok harms
  refine joinAll_later ?_ _
  rintro ⟨i, before, y, z⟩ hr
  obtain ⟨j, hj⟩ := List.mem_iff_getElem?.1 hr
  obtain ⟨hvar, hj⟩ := List.getElem?_zip_eq_some.1 hj
  obtain ⟨-, hj⟩ := List.getElem?_zip_eq_some.1 hj
  obtain ⟨hy, hz⟩ := List.getElem?_zip_eq_some.1 hj
  refine ⟨hlt i (List.mem_of_getElem? hvar), ?_⟩
  show (st.state i).version ≤ max y.version z.version
  -- one of the arms is what the store holds
  rcases harm with ⟨-, rfl, -⟩ | ⟨-, -, rfl⟩
  · obtain rfl : st.state i = y := by simpa [hvar] using hy
    omega
  · obtain rfl : st.state i = z := by simpa [hvar] using hz
    omega

end Conditional

/-! ### Loops -/

namespace Loop

theorem joinFrom_later {its : List Iteration} (vars : List Nat) {st : Store} (position : Nat) :
    (joinFrom its st position vars).Makes fun r => st.Later r.2 := by
  induction vars generalizing st position with
  | nil => exact .pure (.refl st)
  | cons i vars ih =>
    unfold joinFrom
    split
    · exact .pure (.refl st)
    · next current hc =>
      obtain ⟨hi, hstate⟩ := Store.state_of_slot hc
      dsimp only
      split
      · exact ih _
      · refine .bind (P := fun _ => True) (fun _ => trivial) fun s _ => (ih _).mono fun r hr => ?_
        refine (Store.later_put hi ?_).trans hr
        rw [hstate]
        exact Nat.lt_succ_self _

/-- What an unwinding can do: nothing, note the states of the tracked variables, or join what has been
noted, perhaps only up to a variable that is not there. -/
inductive Unwinds (l : Loop) (st : Store) (g : Tracked) (n : Nat) :
    (Except Error Bool × Loop × Store) × Nat → Prop
  | kept {answer : Except Error Bool} {l' : Loop} (h : l'.iterations = l.iterations) :
    Unwinds l st g n ((answer, l', st), n)
  | noted {l' : Loop} {entry : List Slot} (hentry : st.slotsOf l.vars = .ok entry)
    (h : l'.iterations = l.iterations ++ [⟨g, entry⟩]) : Unwinds l st g n ((.ok true, l', st), n)
  | joined {answer : Except Error Bool} {l' : Loop} (h : l'.iterations = l.iterations) :
    Unwinds l st g n ((answer, l', (l.join st n).1.2), (l.join st n).2)

theorem unwind_unwinds (l : Loop) (st : Store) (g : Tracked) (n : Nat) :
    Unwinds l st g n (l.unwind st g n) := by
  unfold unwind
  split
  · exact .kept rfl
  · dsimp only
    -- whatever the policy answers
    generalize (if !g.concrete || g.isTrue then l.policy.ask g else (false, l.policy)) = asked
    obtain ⟨more, policy⟩ := asked
    cases more with
    | true =>
      dsimp only
      rw [if_pos rfl]
      cases hentry : st.slotsOf l.vars with
      | error e => exact .kept rfl
      | ok entry => exact .noted hentry rfl
    | false =>
      dsimp only
      rw [if_neg (by simp)]
      rw [Mint.bind_apply]
      generalize hjoin : join _ st n = r
      have hr : r = l.join st n := hjoin.symm
      obtain ⟨⟨answer, st'⟩, n'⟩ := r
      obtain ⟨rfl, rfl⟩ : st' = (l.join st n).1.2 ∧ n' = (l.join st n).2 := by
        rw [← hr]
        exact ⟨rfl, rfl⟩
      cases answer with
      | error e => exact .joined rfl
      | ok u => exact .joined rfl

theorem unwind_later (l : Loop) (st : Store) (g : Tracked) :
    (l.unwind st g).Makes fun r => st.Later r.2.2 := by
  intro n
  have h := unwind_unwinds l st g n
  generalize l.unwind st g n = r at h
  cases h with
  | kept h => exact .refl st
  | noted hentry h => exact .refl st
  | joined h =>
    show st.Later (l.join st n).1.2
    unfold join
    split
    · exact .refl st
    · exact joinFrom_later _ _ _

end Loop

/-! ### Sessions -/

namespace Session

open Run (Leads)

/-- The store at an index; an empty one if there is none. -/
def storeAt (s : Session) (index : Nat) : Store := s.stores[index]?.getD {}

/-- All stores have evolved, and none is lost. -/
structure Evolves (s s' : Session) : Prop where
  length_le : s.stores.length ≤ s'.stores.length
  store : ∀ index, (s.storeAt index).Evolves (s'.storeAt index)

section
variable {s₀ s s' : Session}

theorem Evolves.refl (s : Session) : s.Evolves s := ⟨Nat.le_refl _, fun _ => .refl _⟩

theorem Evolves.of_stores_eq (h : s₀.Evolves s) (heq : s'.stores = s.stores) : s₀.Evolves s' := by
  refine ⟨heq ▸ h.length_le, fun k => ?_⟩
  have hk := h.store k
  rwa [storeAt, storeAt, ← heq] at hk

theorem Evolves.setStore (h : s₀.Evolves s) {k : Nat} {st st' : Store} (hst : s.stores[k]? = some st)
    (hev : st.Evolves st') : s₀.Evolves { s with stores := s.stores.set k st' } := by
  refine ⟨by simpa using h.length_le, fun j => ?_⟩
  by_cases hkj : k = j
  · subst hkj
    have hlt : k < s.stores.length := (List.getElem?_eq_some_iff.1 hst).1
    have hk := h.store k
    simp only [storeAt, hst, Option.getD_some] at hk
    simpa [storeAt, hlt] using hk.trans hev
  · simpa [storeAt, List.getElem?_set_ne hkj] using h.store j

theorem Evolves.addStore (h : s₀.Evolves s) (st : Store) :
    s₀.Evolves { s with stores := s.stores ++ [st] } := by
  have hlen := h.length_le
  refine ⟨by simp; omega, fun j => ?_⟩
  by_cases hj : j < s₀.stores.length
  · simpa [storeAt, List.getElem?_append_left (Nat.lt_of_lt_of_le hj hlen)] using h.store j
  · have hempty : s₀.storeAt j = {} := by
      simp [storeAt, List.getElem?_eq_none (Nat.le_of_not_lt hj)]
    rw [hempty]
    exact Store.empty_evolves _

/-- What loses names at most leaves the stores. -/
theorem Evolves.sheds {α : Type} (h : s₀.Evolves s) {x : Run α} {Q : α → Session → Prop}
    (hx : x.Leads s (Sheds s) Q) : x.Leads s s₀.Evolves Q :=
  hx.mono (fun _ hk => h.of_stores_eq hk.stores) fun _ _ _ hq => hq

theorem Evolves.evalValue (h : s₀.Evolves s) (inFlight : List Expr) (v : ValueForm) :
    (evalValue inFlight v).Leads s s₀.Evolves fun _ _ => True :=
  h.sheds (evalValue_sheds v inFlight s (.refl s))

theorem Evolves.evalGuard (h : s₀.Evolves s) (inFlight : List Expr) (v : ValueForm) :
    (evalGuard inFlight v).Leads s s₀.Evolves fun _ _ => True :=
  h.sheds (evalGuard_sheds inFlight v (.refl s))

/-- A call on a store, with the store it leaves. -/
theorem Evolves.build {α : Type} (h : s₀.Evolves s) {x : Build α} {Q : α → Prop}
    (hx : ∀ a n, x s.next = .ok (a, n) → Q a) :
    (build x).Leads s s₀.Evolves fun a s' => s'.stores = s.stores ∧ Q a :=
  .build (fun _ => h.of_stores_eq rfl) fun a n hr => ⟨rfl, hx a n hr⟩

theorem unwindOnce_evolves (inFlight : List Expr) (scope : String) (guard : ValueForm) (k : Nat)
    (h : s₀.Evolves s) : (unwindOnce inFlight scope guard k).Leads s s₀.Evolves fun _ _ => True := by
  refine .bind (h.evalGuard inFlight guard) fun g s _ h _ => ?_
  refine .bind (namedLoop_leads h scope) ?_
  rintro l s - - ⟨rfl, -⟩
  refine .bind (store_leads h k) ?_
  rintro st s - - ⟨rfl, hst⟩
  refine .bind (P := fun r s' => s'.stores = s.stores ∧ st.Later r.2.2) (.mint (fun _ => h.of_stores_eq rfl) fun _ => ?_) ?_
  · exact ⟨rfl, l.unwind_later st g s.next⟩
  rintro ⟨more, l', st'⟩ s' - h ⟨hstores, hlater⟩
  have hst' : s'.stores[k]? = some st := by rw [hstores, hst]
  have hnext := h.setStore hst' hlater.evolves
  refine .modify (.modify (.bind (P := fun _ _ => True) (.lift ?_ fun _ _ => trivial) ?_))
  · exact hnext.of_stores_eq rfl
  · exact fun _ _ _ h _ => .pure h trivial

/-- The end of a conditional, whichever arms have run. -/
theorem finishOn_evolves (h : s₀.Evolves s) (c : Conditional) (k : Nat) (answer : Answer) :
    (do
      lift (← finishOn c k).1
      return answer).Leads s s₀.Evolves fun _ _ => True := by
  refine finishOn_leads h (fun _ => .throw h) fun st c' st' n hst hrun => .pure ?_ trivial
  exact (h.setStore hst (Conditional.finish_later hrun).evolves).of_stores_eq rfl

/-- The beginning of a conditional. -/
theorem beginNew_evolves (h : s₀.Evolves s) (inFlight : List Expr) (guard : ValueForm)
    (track : List String) (k : Nat) :
    (beginNew inFlight guard track k).Leads s s₀.Evolves fun _ _ => True := by
  refine .bind (h.evalGuard inFlight guard) fun g s _ h _ => .bind (vars_leads h track) fun vs s _ h _ => ?_
  refine .bind (P := fun _ _ => True) (.lift h fun _ _ => trivial) fun c s _ h _ => ?_
  refine .bind (store_leads h k) fun st s _ h _ => ?_
  exact .bind (P := fun _ _ => True) (.lift h fun _ _ => trivial) fun _ _ _ h _ => .pure h trivial

mutual
/-- **A step only lets stores evolve.** -/
theorem runStep_evolves (inFlight : List Expr) (step : Step) {s : Session} (h : s₀.Evolves s) :
    (runStep inFlight step).Leads s s₀.Evolves fun _ _ => True := by
  cases step with
  | bind name v =>
    refine .bind (h.evalValue inFlight v) fun w s _ h _ => ?_
    exact .modify (.pure (h.of_stores_eq rfl) trivial)
  | symbolize name symbol =>
    refine .bind (value_leads h name) fun v s _ h _ => ?_
    refine .bind (P := fun _ _ => True) (.mint (fun _ => h.of_stores_eq rfl) fun _ => trivial) fun w s _ h _ => ?_
    exact .modify (.pure (h.of_stores_eq rfl) trivial)
  | assign name v =>
    refine .bind (h.evalValue inFlight v) fun w s _ h _ => .bind (value_leads h name) fun d s _ h _ => ?_
    refine .bind (P := fun _ _ => True) (.mint (fun _ => h.of_stores_eq rfl) fun _ => trivial) fun w s _ h _ => ?_
    exact .modify (.pure (h.of_stores_eq rfl) trivial)
  | drop kind name =>
    refine .bind (P := fun _ _ => True) ⟨?_, fun _ _ => trivial⟩ fun _ _ _ h _ => .pure h trivial
    cases kind <;> exact h.of_stores_eq rfl
  | newStore => exact .get (.modify (.pure (h.addStore {}) trivial))
  | cloneStore k =>
    refine .bind (store_leads h k) ?_
    rintro st s - - ⟨rfl, -⟩
    exact .get (.modify (.pure (h.addStore st) trivial))
  | declare x v k =>
    refine .bind (h.evalValue inFlight v) fun w s _ h _ => .bind (store_leads h k) ?_
    rintro st s - - ⟨rfl, hst⟩
    have hnext := h.setStore hst (st.declare_evolves w)
    exact .modify (.modify (.pure (hnext.of_stores_eq rfl) trivial))
  | set x v k =>
    refine .bind (h.evalValue inFlight v) fun w s _ h _ => .bind (var_leads h x) fun y s _ h _ => ?_
    refine .bind (store_leads h k) ?_
    rintro st s - - ⟨rfl, hst⟩
    refine .bind (h.build (Q := fun st' => st.Later st') fun _ _ hr => Store.set_later hr) ?_
    rintro st' s' - h ⟨hstores, hlater⟩
    have hst' : s'.stores[k]? = some st := by rw [hstores, hst]
    have hnext := h.setStore hst' hlater.evolves
    exact .modify (.bind (P := fun _ _ => True) (.lift hnext fun _ _ => trivial) fun _ _ _ h _ =>
      .pure h trivial)
  | openIf name guard =>
    refine .bind (h.evalGuard inFlight guard) fun g s _ h _ => ?_
    exact .modify (.pure (h.of_stores_eq rfl) trivial)
  | beginThen scope k => exact beginThen_leads h fun _ _ _ _ _ _ _ => ⟨h.of_stores_eq rfl, trivial⟩
  | beginElse scope k =>
    refine beginElse_leads h fun c st b c' st' _ hst hrun => ⟨?_, trivial⟩
    exact (h.setStore hst (Conditional.beginElse_later hrun).evolves).of_stores_eq rfl
  | finish scope k =>
    refine finish_leads h fun c st c' st' n _ hst hrun => ?_
    exact (h.setStore hst (Conditional.finish_later hrun).evolves).of_stores_eq rfl
  | openLoop name policy => exact .get (.modify (.pure (h.of_stores_eq rfl) trivial))
  | unwind scope guard k =>
    exact .bind (unwindOnce_evolves inFlight scope guard k h) fun _ _ _ h _ => .pure h trivial
  | track scope x => exact track_leads h (fun _ _ _ _ _ => h.of_stores_eq rfl) fun _ _ _ _ _ => h.of_stores_eq rfl
  | cond guard track yes no k =>
    cases no with
    | none =>
      refine .bind (beginNew_evolves h inFlight guard track k) fun r s _ h _ => ?_
      refine arm_leads r.1 (fun _ => runSteps_evolves _ yes h) (fun first s h => ?_) h
      exact finishOn_evolves h r.2 k _
    | some no =>
      refine .bind (beginNew_evolves h inFlight guard track k) fun r s _ h _ => ?_
      refine arm_leads r.1 (fun _ => runSteps_evolves _ yes h) (fun first s h => ?_) h
      refine beginElseOn_leads h (fun _ => .throw h) fun st b c st' hst hrun => ?_
      have hnext := h.setStore hst (Conditional.beginElse_later hrun).evolves
      refine arm_leads b (fun _ => runSteps_evolves _ no hnext) (fun second s h => ?_) hnext
      exact finishOn_evolves h c k _
  | loop scope guard body k =>
    refine .bind (rounds_leads (fun h => ?_) (fun h => runSteps_evolves inFlight body h) _ _ h) ?_
    · exact .bind (unwindOnce_evolves inFlight scope guard k h) fun _ _ _ h _ => .pure h trivial
    · exact fun _ _ _ h _ => .pure h trivial
  | _ => exact h.sheds (runStep_sheds (.refl s) inFlight rfl)
theorem runSteps_evolves (inFlight : List Expr) (steps : List Step) {s : Session} (h : s₀.Evolves s) :
    (runSteps inFlight steps).Leads s s₀.Evolves fun _ _ => True := by
  match steps with
  | [] => exact .pure h trivial
  | step :: rest =>
    refine .bind (settle_leads (runStep_evolves inFlight step h)) fun a s _ h _ => ?_
    exact .bind (runSteps_evolves inFlight rest h) fun _ s _ h _ => .pure h trivial
end

end

/-- **Versions identify states.** From any state of a session on, whatever steps are run: the version of
a variable does not decrease, it increases if anything about the variable changes, and two reads at one
version are the same. -/
theorem versions_identify_states (s : Session) (steps : List Step) (index : Nat) :
    let before := s.storeAt index
    let after := (s.afterAll steps).storeAt index
    (∀ i < before.size, i < after.size ∧ (before.state i).version ≤ (after.state i).version ∧
      (after.state i ≠ before.state i → (before.state i).version < (after.state i).version)) ∧
    ∀ x v w, before.get x = .ok v → after.get x = .ok w → v.version = w.version → v = w := by
  intro before after
  have h : before.Evolves after := (runSteps_evolves [] steps (.refl s)).1.store index
  refine ⟨fun i hi => ⟨Nat.lt_of_lt_of_le hi h.size_le, h.version_le i hi, fun hne => ?_⟩, ?_⟩
  · have hle := h.version_le i hi
    have hv : (after.state i).version ≠ (before.state i).version := fun heq => hne (h.state_eq i hi heq)
    omega
  · intro x v w hv hw heq
    obtain ⟨a, ha, rfl⟩ := Store.get_eq_ok hv
    obtain ⟨b, hb, rfl⟩ := Store.get_eq_ok hw
    obtain ⟨hi, rfl⟩ := Store.state_of_slot ha
    obtain ⟨-, rfl⟩ := Store.state_of_slot hb
    have heq : (before.state x.index).version = (after.state x.index).version := heq
    rw [h.state_eq x.index hi heq.symm]

/-- Two conditionals that track one variable, the outer one closed first. -/
def crossedScopes : List Step :=
  [.declare "x" (.any "X" .int) 0, .openIf "a" (.any "A" .bool), .track "a" "x", .beginThen "a" 0,
    .openIf "b" (.any "B" .bool), .track "b" "x", .beginThen "b" 0, .set "x" (.new (.int 1)) 0,
    .finish "a" 0, .beginElse "b" 0, .finish "b" 0]

example : ((List.range 12).map fun n =>
      (((ofConfig {}).afterAll (crossedScopes.take n)).storeAt 0 |>.slots.map (·.version))) =
    [[], [0], [0], [0], [0], [0], [0], [0], [1], [2], [3], [4]] := by
  decide +kernel

end Session

end Symex
