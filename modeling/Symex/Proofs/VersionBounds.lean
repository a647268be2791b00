import Symex.Proofs.Joining
import Symex.Proofs.SessionVersions

/-!
How far versions grow. What a call puts back or joins is one version ahead of what it has noted or found, so a
call raises the largest version of a session by one at most. The versions of a run of fewer than `2 ^ 32` calls
are numbers of 32 bits.
-/

namespace Symex

/-! ### Values -/

namespace Tracked

/-- The version of a value, and the one it was read at, are not beyond a bound. -/
structure Within (m : Nat) (v : Tracked) : Prop where
  version_le : v.version ≤ m
  origin_le : ∀ o ∈ v.origin, o.version ≤ m

variable {m m' : Nat} {v w : Tracked}

theorem Within.mono (h : v.Within m) (hle : m ≤ m') : v.Within m' :=
  ⟨Nat.le_trans h.version_le hle, fun o ho => Nat.le_trans (h.origin_le o ho) hle⟩

/-- Values that operators make have no version yet. -/
theorem within_of_fresh (hversion : v.version = 0) (horigin : v.origin = none) : v.Within m := by
  refine ⟨by omega, fun o ho => ?_⟩
  rw [horigin] at ho
  cases ho

theorem combine_within (op : Operator) (ty : Ty) (data : Scalar) (l r : Tracked) (own : Ownership) :
    (combine op ty data l r own).Makes (Within m) := by
  intro n
  unfold combine
  split
  · exact within_of_fresh rfl rfl
  · exact within_of_fresh rfl rfl

theorem cast_within (h : v.Within m) (ty : Ty) : (v.cast ty).Makes (Within m) := by
  unfold cast
  split
  · exact .pure h
  · exact fun _ => ⟨h.version_le, fun _ ho => nomatch ho⟩

theorem symbolize_within (h : v.Within m) (name : String) : (v.symbolize name).Makes (Within m) := by
  unfold symbolize
  split
  · exact fun _ => ⟨h.version_le, h.origin_le⟩
  · exact fun _ => ⟨h.version_le, h.origin_le⟩

/-- **An assignment raises the larger of two versions by one at most.** -/
theorem assign_within (hv : v.Within m) (hw : w.Within m) : (v.assign w).Makes (Within (m + 1)) := by
  intro n
  refine ⟨?_, fun o ho => Nat.le_succ_of_le (hv.origin_le o ho)⟩
  have h1 := hv.version_le
  have h2 := hw.version_le
  show max (v.version + 1) w.version ≤ m + 1
  omega

end Tracked

/-! ### Stores -/

namespace Store

/-- No version is beyond a bound. -/
def Within (m : Nat) (st : Store) : Prop := ∀ slot ∈ st.slots, slot.version ≤ m

variable {m m' : Nat} {st st' : Store}

theorem Within.mono (h : st.Within m) (hle : m ≤ m') : st.Within m' :=
  fun slot hslot => Nat.le_trans (h slot hslot) hle

theorem Within.slot (h : st.Within m) {i : Nat} {s : Slot} (hs : st.slot i = .ok s) : s.version ≤ m :=
  h s (List.mem_of_getElem? (slot_eq_ok_iff.1 hs))

theorem Within.state (h : st.Within m) {i : Nat} (hi : i < st.size) : (st.state i).version ≤ m :=
  h.slot (slot_eq hi)

theorem Within.noted (h : st.Within m) {vars : List Nat} (hlt : ∀ i ∈ vars, i < st.size) :
    ∀ slot ∈ vars.map st.state, slot.version ≤ m := by
  intro slot hslot
  obtain ⟨i, hi, rfl⟩ := List.mem_map.1 hslot
  exact h.state (hlt i hi)

theorem Within.put (h : st.Within m) {s : Slot} (hs : s.version ≤ m) (i : Nat) : (st.put i s).Within m := by
  intro slot hslot
  rcases List.mem_or_eq_of_mem_set hslot with hmem | rfl
  · exact h slot hmem
  · exact hs

theorem Within.declare (h : st.Within m) (v : Tracked) : (st.declare v).2.Within m := by
  intro slot hslot
  rcases List.mem_append.1 hslot with hmem | hmem
  · exact h slot hmem
  · obtain rfl := List.mem_singleton.1 hmem
    exact Nat.zero_le m

theorem Within.get (h : st.Within m) {x : Var} {v : Tracked} (hv : st.get x = .ok v) : v.Within m := by
  obtain ⟨s, hs, rfl⟩ := get_eq_ok hv
  have hversion : s.version ≤ m := h.slot hs
  refine ⟨hversion, fun o ho => ?_⟩
  cases ho
  exact hversion

theorem Within.set (h : st.Within m) {x : Var} {v : Tracked} (hv : v.Within m) {n n' : Nat}
    (hset : st.set x v n = .ok (st', n')) : st'.Within (m + 1) := by
  have hle : st.Within (m + 1) := h.mono (Nat.le_succ m)
  cases hs : st.slot x.index with
  | error e =>
    rw [show st.set x v n = .error e by unfold Store.set Store.get; rw [hs]; rfl] at hset
    cases hset
  | ok s =>
    rw [set_eq hs] at hset
    split at hset
    · cases hset
      exact hle
    · cases hset
      have hread : (s.readBy x).Within m := h.get (get_of_slot hs)
      exact hle.put (Tracked.assign_within hread hv n).version_le _

end Store

/-! ### Conditionals -/

namespace Conditional

/-- No version that a scope holds is beyond a bound. -/
structure Within (m : Nat) (c : Conditional) : Prop where
  guard : c.guard.Within m
  entry : ∀ slot ∈ c.entry, slot.version ≤ m
  thenArm : ∀ slot ∈ c.thenArm, slot.version ≤ m

variable {m m' : Nat} {c c' : Conditional} {st st' : Store}

theorem Within.mono (h : c.Within m) (hle : m ≤ m') : c.Within m' :=
  ⟨h.guard.mono hle, fun slot hslot => Nat.le_trans (h.entry slot hslot) hle,
    fun slot hslot => Nat.le_trans (h.thenArm slot hslot) hle⟩

theorem within_of_guard {g : Tracked} (hg : g.Within m) (vars : List Nat) :
    Within m { guard := g, vars } :=
  ⟨hg, fun _ h => (nomatch h), fun _ h => (nomatch h)⟩

theorem Within.track (h : c.Within m) {x : Var} (hx : c.track x = (.ok (), c')) : c'.Within m := by
  obtain ⟨-, rfl⟩ := track_eq_ok hx
  split
  · exact h
  · exact ⟨h.guard, h.entry, h.thenArm⟩

theorem Within.beginThen (h : c.Within m) (hst : st.Within m) {b : Bool}
    (hc : c.beginThen st = (.ok b, c')) : c'.Within m := by
  obtain ⟨-, hlt, rfl⟩ := beginThen_eq_ok hc
  exact ⟨h.guard, hst.noted hlt, h.thenArm⟩

/-- **Putting back is one version ahead of the end of the arm.** -/
theorem Within.beginElse (h : c.Within m) (hst : st.Within m) {b : Bool}
    (hc : c.beginElse st = (.ok b, c', st')) : c'.Within m ∧ st'.Within (m + 1) := by
  obtain ⟨-, -, hlt, rfl, rfl⟩ := beginElse_eq_ok hc
  refine ⟨⟨h.guard, h.entry, hst.noted hlt⟩, ?_⟩
  refine restore_induct (hst.mono (Nat.le_succ m)) fun r hr st' _ hst' => hst'.put (Nat.succ_le_succ ?_) _
  exact hst.noted hlt _ (List.of_mem_zip (List.of_mem_zip hr).2).2

/-- **A join is one version ahead of both arms.** -/
theorem joinAll_within {g : Tracked} {e : Expr} {rows : List (Nat × Slot × Slot × Slot)}
    (hst : st.Within (m + 1)) (hrows : ∀ r ∈ rows, r.2.2.1.version ≤ m ∧ r.2.2.2.version ≤ m) :
    (joinAll g e st rows).Makes (·.2.Within (m + 1)) := by
  refine joinAll_induct hst fun r hr => ?_
  refine (joinArms_version g e r.2.2.1 r.2.2.2 _).mono fun s hs st' _ hst' => hst'.put ?_ _
  obtain ⟨hyes, hno⟩ := hrows r hr
  omega

theorem Within.finish (h : c.Within m) (hst : st.Within m) {n n' : Nat}
    (hc : c.finish st n = ((.ok (), c', st'), n')) : c'.Within m ∧ st'.Within (m + 1) := by
  obtain ⟨yes, no, harms, rfl, rfl, -⟩ := finish_eq_ok hc
  obtain ⟨hlt, harm⟩ := arms_eq_ok harms
  obtain ⟨hyes, hno⟩ : (∀ slot ∈ yes, slot.version ≤ m) ∧ ∀ slot ∈ no, slot.version ≤ m := by
    rcases harm with ⟨-, rfl, rfl⟩ | ⟨-, rfl, rfl⟩
    · exact ⟨hst.noted hlt, h.entry⟩
    · exact ⟨h.thenArm, hst.noted hlt⟩
  refine ⟨⟨h.guard, h.entry, hyes⟩, joinAll_within (hst.mono (Nat.le_succ m)) (fun r hr => ?_) _⟩
  have harms := List.of_mem_zip (List.of_mem_zip (List.of_mem_zip hr).2).2
  exact ⟨hyes _ harms.1, hno _ harms.2⟩

end Conditional

/-! ### Loops -/

namespace Loop

/-- No version that a scope holds is beyond a bound. Each variable is tracked once, so it is joined once. -/
structure Within (m : Nat) (l : Loop) : Prop where
  nodup : l.vars.Nodup
  noted : ∀ it ∈ l.iterations, it.guard.Within m ∧ ∀ slot ∈ it.entry, slot.version ≤ m

variable {m m' : Nat} {l l' : Loop} {st : Store}

theorem Within.mono (h : l.Within m) (hle : m ≤ m') : l.Within m' := by
  refine ⟨h.nodup, fun it hit => ⟨(h.noted it hit).1.mono hle, fun slot hslot => ?_⟩⟩
  exact Nat.le_trans ((h.noted it hit).2 slot hslot) hle

theorem within_of_policy (policy : Policy) : Within m { policy } := ⟨List.nodup_nil, fun _ h => nomatch h⟩

theorem Within.track (h : l.Within m) {x : Var} (hx : l.track x = (.ok (), l')) : l'.Within m := by
  obtain ⟨-, rfl⟩ := track_eq_ok hx
  split
  · exact h
  · next hx =>
    refine ⟨List.nodup_append.2 ⟨h.nodup, List.pairwise_singleton _ _, ?_⟩, h.noted⟩
    rintro i hi j hj rfl
    rw [List.mem_singleton.1 hj] at hi
    exact hx hi

/-- **A join is one version ahead of what the store holds.** The induction is on the variables that are left;
these have not been joined yet. -/
theorem joinFrom_within {its : List Iteration} {vars : List Nat} (hnd : vars.Nodup)
    (hst : st.Within (m + 1)) (hvars : ∀ i ∈ vars, i < st.size → (st.state i).version ≤ m)
    (position : Nat) : (joinFrom its st position vars).Makes (·.2.Within (m + 1)) := by
  induction vars generalizing st position with
  | nil => exact .pure hst
  | cons i vars ih =>
    obtain ⟨hi, hnd⟩ := List.nodup_cons.1 hnd
    obtain ⟨hvar, hvars⟩ := List.forall_mem_cons.1 hvars
    unfold joinFrom
    split
    · exact .pure hst
    · next current hc =>
      obtain ⟨hlt, rfl⟩ := Store.state_of_slot hc
      dsimp only
      split
      · exact ih hnd hst hvars _
      · refine .bind (P := fun _ => True) (fun _ => trivial) fun s _ => ih hnd ?_ (fun j hj hjlt => ?_) _
        · exact hst.put (Nat.succ_le_succ (hvar hlt)) i
        · have hij : i ≠ j := fun heq => hi (heq ▸ hj)
          rw [Store.state_put_of_ne hij]
          rw [Store.size_put] at hjlt
          exact hvars j hj hjlt

theorem join_within (h : l.Within m) (hst : st.Within m) : (l.join st).Makes (·.2.Within (m + 1)) := by
  have hle : st.Within (m + 1) := hst.mono (Nat.le_succ m)
  unfold join
  split
  · exact .pure hle
  · exact joinFrom_within h.nodup hle (fun i _ hi => hst.state hi) 0

theorem vars_unwind (l : Loop) (st : Store) (g : Tracked) (n : Nat) :
    (l.unwind st g n).1.2.1.vars = l.vars := by
  unfold unwind
  split
  · rfl
  · dsimp only
    generalize (if !g.concrete || g.isTrue then l.policy.ask g else (false, l.policy)) = asked
    obtain ⟨more, policy⟩ := asked
    cases more with
    | true =>
      dsimp only
      rw [if_pos rfl]
      cases st.slotsOf l.vars with
      | error e => rfl
      | ok entry => rfl
    | false =>
      dsimp only
      rw [if_neg (by simp), Mint.bind_apply]
      generalize join _ st n = r
      obtain ⟨⟨_ | _, _⟩, _⟩ := r
      · rfl
      · rfl

theorem unwind_within (h : l.Within m) (hst : st.Within m) {g : Tracked} (hg : g.Within m) :
    (l.unwind st g).Makes fun r => r.2.1.Within m ∧ r.2.2.Within (m + 1) := by
  intro n
  have hle : st.Within (m + 1) := hst.mono (Nat.le_succ m)
  have hnd : (l.unwind st g n).1.2.1.vars.Nodup := by
    rw [vars_unwind]
    exact h.nodup
  have hunwinds := unwind_unwinds l st g n
  generalize l.unwind st g n = r at hunwinds hnd
  cases hunwinds with
  | kept hits => exact ⟨⟨hnd, hits ▸ h.noted⟩, hle⟩
  | noted hentry hits =>
    obtain ⟨hlt, rfl⟩ := Store.slotsOf_eq_ok hentry
    refine ⟨⟨hnd, fun it hit => ?_⟩, hle⟩
    rw [hits] at hit
    rcases List.mem_append.1 hit with hit | hit
    · exact h.noted it hit
    · obtain rfl := List.mem_singleton.1 hit
      exact ⟨hg, hst.noted hlt⟩
  | joined hits => exact ⟨⟨hnd, hits ▸ h.noted⟩, join_within h hst n⟩

end Loop

/-! ### Sessions -/

namespace Session

open Run (Leads)

def Scope.Within (m : Nat) : Scope → Prop
  | .conditional c => c.Within m
  | .loop l => l.Within m

/-- No version of a session is beyond a bound. -/
structure Within (m : Nat) (s : Session) : Prop where
  values : ∀ e ∈ s.values, e.2.Within m
  stores : ∀ st ∈ s.stores, st.Within m
  scopes : ∀ e ∈ s.scopes, e.2.Within m

theorem ofConfig_within (config : Config) : (ofConfig config).Within 0 where
  values _ h := nomatch h
  stores st h := by
    obtain rfl := List.mem_singleton.1 h
    intro slot hslot
    cases hslot
  scopes _ h := nomatch h

section
variable {m m' : Nat} {s s' : Session}

theorem Within.mono (h : s.Within m) (hle : m ≤ m') : s.Within m' := by
  refine ⟨fun e he => (h.values e he).mono hle, fun st hst => (h.stores st hst).mono hle, ?_⟩
  rintro ⟨name, sc⟩ he
  cases sc with
  | conditional c => exact Conditional.Within.mono (h.scopes _ he) hle
  | loop l => exact Loop.Within.mono (h.scopes _ he) hle

section
variable {α : Type} {x : Run α} {Q : α → Session → Prop} (hx : x.Leads s (Within m) Q) (hle : m ≤ m')
include hx hle

theorem Run.Leads.relaxed : x.Leads s (Within m') Q :=
  hx.mono (fun _ h => h.mono hle) fun _ _ _ hq => hq

/-- What keeps to a bound keeps to a greater one; the state can still be known to keep to the first. -/
theorem Run.Leads.raised : x.Leads s (Within m') fun a s' => s'.Within m ∧ Q a s' :=
  hx.mono (fun _ h => h.mono hle) fun _ _ h hq => ⟨h, hq⟩

end

section
variable (h : s.Within m)
include h

theorem Within.kept (hk : Kept s s') : s'.Within m := by
  refine ⟨fun e he => h.values e (hk.values e he), ?_, ?_⟩
  · rw [hk.stores]
    exact h.stores
  · rw [hk.scopes]
    exact h.scopes

theorem Within.next (n : Nat) : Within m { s with next := n } := ⟨h.values, h.stores, h.scopes⟩

theorem Within.store {k : Nat} {st : Store} (hst : s.stores[k]? = some st) : st.Within m :=
  h.stores st (List.mem_of_getElem? hst)

theorem Within.scope {name : String} {sc : Scope} (hsc : s.scopes.find? name = some sc) : sc.Within m :=
  h.scopes _ (Table.mem_of_find? hsc)

theorem Within.setValue {v : Tracked} (hv : v.Within m) (name : String) :
    Within m { s with values := s.values.insert name v } :=
  ⟨Table.forall_mem_insert h.values hv, h.stores, h.scopes⟩

theorem Within.setScope (sc : Scope) (hsc : sc.Within m) (name : String) :
    Within m { s with scopes := s.scopes.put name sc } :=
  ⟨h.values, h.stores, Table.forall_mem_put h.scopes hsc⟩

theorem Within.setStore {st : Store} (hst : st.Within m) (k : Nat) :
    Within m { s with stores := s.stores.set k st } := by
  refine ⟨h.values, fun st' hst' => ?_, h.scopes⟩
  rcases List.mem_or_eq_of_mem_set hst' with hmem | rfl
  · exact h.stores st' hmem
  · exact hst

theorem Within.addStore {st : Store} (hst : st.Within m) : Within m { s with stores := s.stores ++ [st] } := by
  refine ⟨h.values, fun st' hst' => ?_, h.scopes⟩
  rcases List.mem_append.1 hst' with hmem | hmem
  · exact h.stores st' hmem
  · obtain rfl := List.mem_singleton.1 hmem
    exact hst

theorem Within.dropName (kind : NameKind) (name : String) :
    Within m ((Session.dropName kind name).run.run s).2 := by
  obtain ⟨values, stores, scopes⟩ := h
  cases kind with
  | value => exact ⟨fun e he => values e (List.mem_filter.1 he).1, stores, scopes⟩
  | expr => exact ⟨values, stores, scopes⟩
  | draft => exact ⟨values, stores, scopes⟩
  | scope => exact ⟨values, stores, fun e he => scopes e (List.mem_filter.1 he).1⟩

/-! ### Forms -/

theorem Within.carries : Carries s (fun _ => True) (Tracked.Within m) where
  new _ := Tracked.within_of_fresh rfl rfl
  any _ _ _ _ := Tracked.within_of_fresh rfl rfl
  withExpr _ _ _ _ := Tracked.within_of_fresh rfl rfl
  named := h.values
  get _ _ _ _ _ _ _ hst hv := (h.store hst).get hv
  add _ _ := Tracked.combine_within _ _ _ _ _
  lt _ _ := Tracked.combine_within _ _ _ _ _
  equals _ _ := Tracked.combine_within _ _ _ _ _
  and _ _ := Tracked.combine_within _ _ _ _ _
  or _ _ := Tracked.combine_within _ _ _ _ _
  not _ _ _ := Tracked.within_of_fresh rfl rfl
  cast ty ha := Tracked.cast_within ha ty

theorem Within.evalValue (inFlight : List Expr) (v : ValueForm) :
    (evalValue inFlight v).Leads s (Within m) fun w _ => w.Within m :=
  (h.carries.evaluates v inFlight s (.refl s)).mono (fun _ hk => h.kept hk) fun _ _ _ hw =>
    hw fun _ _ => trivial

theorem Within.evalGuard (inFlight : List Expr) (v : ValueForm) :
    (evalGuard inFlight v).Leads s (Within m) fun w _ => w.Within m :=
  (h.carries.evaluates_guard inFlight v).mono (fun _ hk => h.kept hk) fun _ _ _ hw =>
    hw.2 fun _ _ => trivial

/-! ### Parts of steps -/

theorem unwindOnce_within (inFlight : List Expr) (scope : String) (guard : ValueForm) (k : Nat) :
    (unwindOnce inFlight scope guard k).Leads s (Within (m + 1)) fun _ _ => True := by
  refine .bind ((h.evalGuard inFlight guard).raised (Nat.le_succ m)) fun g s _ _ ⟨h, hg⟩ => ?_
  refine .bind ((namedLoop_leads h scope).raised (Nat.le_succ m)) ?_
  rintro l s - - ⟨-, rfl, hl⟩
  refine .bind ((store_leads h k).raised (Nat.le_succ m)) ?_
  rintro st s - - ⟨-, rfl, hst⟩
  have hr := Loop.unwind_within (h.scope hl) (h.store hst) hg
  refine .bind (P := fun r s' => s'.Within (m + 1) ∧ r.2.1.Within m ∧ r.2.2.Within (m + 1))
    (.mint (fun n => (h.next n).mono (Nat.le_succ m)) fun n => ⟨(h.next n).mono (Nat.le_succ m), hr _⟩) ?_
  rintro ⟨more, l', st'⟩ s' - - ⟨h', hl', hst'⟩
  have hnext := (h'.setScope (.loop l') (hl'.mono (Nat.le_succ m)) scope).setStore hst' k
  refine .modify (.modify (.bind (lift_leads hnext more) ?_))
  exact fun _ _ _ h _ => .pure h trivial

theorem beginNew_within (inFlight : List Expr) (guard : ValueForm) (track : List String) (k : Nat) :
    (beginNew inFlight guard track k).Leads s (Within m) fun r _ => r.2.Within m := by
  refine .bind (h.evalGuard inFlight guard) fun g s _ h hg => .bind (vars_leads h track) ?_
  rintro vs s - - rfl
  refine .bind (P := fun c s' => s' = s ∧ c.Within m) (.lift h fun c hc => ⟨rfl, ?_⟩) ?_
  · cases (Conditional.tracking_eq g vs).symm.trans hc
    exact Conditional.within_of_guard hg _
  rintro c s - - ⟨rfl, hc⟩
  refine .bind (store_leads h k) ?_
  rintro st s - - ⟨rfl, hst⟩
  refine .bind (lift_leads h _) ?_
  rintro b s - - ⟨rfl, hb⟩
  exact .pure h (hc.beginThen (h.store hst) (Prod.ext hb rfl))

theorem finishOn_within {c : Conditional} (hc : c.Within m) (k : Nat) (answer : Answer) :
    (do
      lift (← finishOn c k).1
      return answer).Leads s (Within (m + 1)) fun _ _ => True := by
  have hle : s.Within (m + 1) := h.mono (Nat.le_succ m)
  refine finishOn_leads hle (fun _ => .throw hle) fun st c' st' n hst hrun => .pure ?_ trivial
  exact (hle.next n).setStore (hc.finish (h.store hst) hrun).2 k

end

/-- An arm that can be taken makes its own calls, and what follows it starts from what it leaves. -/
theorem arm_within {α : Type} {Q : α → Session → Prop} {m'' : Nat} (h : s.Within m) (hle : m ≤ m')
    (hle' : m' ≤ m'') (b : Bool) {x : Run (List Answer)} (hx : x.Leads s (Within m') fun _ _ => True)
    {f : Option (List Answer) → Run α}
    (hf : ∀ answers s, s.Within m' → (f answers).Leads s (Within m'') Q) :
    (if b then do f (← some <$> x) else do f (← pure none)).Leads s (Within m'') Q := by
  cases b with
  | true =>
    refine .bind (P := fun _ s' => s'.Within m') ?_ fun answers s _ _ h => hf answers s h
    rw [map_eq_pure_bind]
    exact .bind (hx.raised hle') fun _ _ _ _ ⟨h, _⟩ => .pure (h.mono hle') h
  | false =>
    exact .bind (P := fun _ s' => s'.Within m') (.pure (h.mono (Nat.le_trans hle hle')) (h.mono hle))
      fun answers s _ _ h => hf answers s h

/-- Every round asks once and runs the body once. -/
theorem rounds_within {more : Run Bool} {body : Run (List Answer)} {calls : Nat}
    (hmore : ∀ {m s}, s.Within m → more.Leads s (Within (m + 1)) fun _ _ => True)
    (hbody : ∀ {m s}, s.Within m → body.Leads s (Within (m + calls)) fun _ _ => True) (n : Nat)
    (before : List (List Answer)) {m : Nat} {s : Session} (h : s.Within m) :
    (rounds more body n before).Leads s (Within (m + n * (1 + calls))) fun _ _ => True := by
  induction n generalizing m s before with
  | zero => exact .throw (h.mono (Nat.le_add_right _ _))
  | succ n ih =>
    rw [Nat.succ_mul]
    refine .bind ((hmore h).raised (by omega)) fun b s _ _ ⟨h, _⟩ => ?_
    cases b with
    | true =>
      refine .bind ((hbody h).raised (by omega)) fun answers s _ _ ⟨h, _⟩ => ?_
      exact (ih _ h).relaxed (by omega)
    | false => exact .pure (h.mono (by omega)) trivial

end

/-! ### Steps -/

mutual
/-- The most calls that a step makes. -/
def Step.calls : Step → Nat
  | .cond _ _ yes none _ => 2 + callsAll yes
  | .cond _ _ yes (some no) _ => 3 + callsAll yes + callsAll no
  | .loop _ _ body _ => roundLimit * (1 + callsAll body)
  | _ => 1
def Step.callsAll : List Step → Nat
  | [] => 0
  | step :: rest => step.calls + callsAll rest
end

mutual
/-- **A step raises the largest version by its calls at most.** -/
theorem runStep_within (inFlight : List Expr) (step : Step) {m : Nat} {s : Session} (h : s.Within m) :
    (runStep inFlight step).Leads s (Within (m + step.calls)) fun _ _ => True := by
  have hsucc : m ≤ m + 1 := Nat.le_succ m
  have hle : s.Within (m + 1) := h.mono hsucc
  cases step with
  | bind name v =>
    refine .bind ((h.evalValue inFlight v).raised hsucc) fun w s _ _ ⟨h, hw⟩ => ?_
    exact .modify (.pure ((h.setValue hw name).mono hsucc) trivial)
  | symbolize name symbol =>
    refine .bind ((value_leads h name).raised hsucc) ?_
    rintro v s - - ⟨-, rfl, hv⟩
    have hw := Tracked.symbolize_within (h.values _ (Table.mem_of_find? hv)) symbol
    refine .bind (P := fun w s' => s'.Within m ∧ w.Within m)
      (.mint (fun n => (h.next n).mono hsucc) fun n => ⟨h.next n, hw _⟩) fun w s _ _ ⟨h, hw⟩ => ?_
    exact .modify (.pure ((h.setValue hw name).mono hsucc) trivial)
  | assign name v =>
    refine .bind ((h.evalValue inFlight v).raised hsucc) fun w s _ _ ⟨h, hw⟩ => ?_
    refine .bind ((value_leads h name).raised hsucc) ?_
    rintro d s - - ⟨-, rfl, hd⟩
    have hnew := Tracked.assign_within (h.values _ (Table.mem_of_find? hd)) hw
    refine .bind (P := fun w _ => w.Within (m + 1)) (.mint (fun n => (h.next n).mono hsucc) fun n => hnew _)
      fun w s _ h hw => ?_
    exact .modify (.pure (h.setValue hw name) trivial)
  | drop kind name =>
    refine .bind (P := fun _ _ => True) ⟨(h.dropName kind name).mono hsucc, fun _ _ => trivial⟩ ?_
    exact fun _ _ _ h _ => .pure h trivial
  | newStore => exact .get (.modify (.pure (hle.addStore fun _ hslot => nomatch hslot) trivial))
  | cloneStore k =>
    refine .bind (store_leads hle k) ?_
    rintro st s - - ⟨rfl, hst⟩
    exact .get (.modify (.pure (hle.addStore (hle.store hst)) trivial))
  | declare x v k =>
    refine .bind ((h.evalValue inFlight v).raised hsucc) fun w s _ h _ => .bind (store_leads h k) ?_
    rintro st s - - ⟨rfl, hst⟩
    have hnext := h.setStore ((h.store hst).declare w) k
    exact .modify (.modify (.pure ⟨hnext.values, hnext.stores, hnext.scopes⟩ trivial))
  | set x v k =>
    refine .bind ((h.evalValue inFlight v).raised hsucc) fun w s _ _ ⟨h, hw⟩ => ?_
    refine .bind ((var_leads h x).raised hsucc) fun y s _ _ ⟨h, _⟩ => ?_
    refine .bind ((store_leads h k).raised hsucc) ?_
    rintro st s - - ⟨-, rfl, hst⟩
    refine .bind (P := fun st' _ => st'.Within (m + 1)) (.build (fun n => (h.next n).mono hsucc) ?_) ?_
    · exact fun _ _ hset => (h.store hst).set hw hset
    · intro st' s _ h hst'
      refine .modify (.bind (lift_leads (h.setStore hst' k) _) ?_)
      exact fun _ _ _ h _ => .pure h trivial
  | openIf name guard =>
    refine .bind ((h.evalGuard inFlight guard).raised hsucc) fun g s _ _ ⟨h, hg⟩ => ?_
    have hnext := h.setScope (.conditional { guard := g }) (Conditional.within_of_guard hg []) name
    exact .modify (.pure (hnext.mono hsucc) trivial)
  | beginThen scope k =>
    refine beginThen_leads hle fun c st b c' hc hst hrun => ⟨?_, trivial⟩
    have hc' := Conditional.Within.beginThen (hle.scope hc) (hle.store hst) hrun
    exact hle.setScope (.conditional c') hc' scope
  | beginElse scope k =>
    refine beginElse_leads hle fun c st b c' st' hc hst hrun => ⟨?_, trivial⟩
    obtain ⟨hc', hst'⟩ := Conditional.Within.beginElse (h.scope hc) (h.store hst) hrun
    exact (hle.setScope (.conditional c') (hc'.mono hsucc) scope).setStore hst' k
  | finish scope k =>
    refine finish_leads hle fun c st c' st' n hc hst hrun => ?_
    obtain ⟨hc', hst'⟩ := Conditional.Within.finish (h.scope hc) (h.store hst) hrun
    exact ((hle.next n).setScope (.conditional c') (hc'.mono hsucc) scope).setStore hst' k
  | openLoop name policy =>
    refine .get (.modify (.pure (hle.setScope _ ?_ name) trivial))
    cases policy with
    | none => exact Loop.within_of_policy _
    | some policy => exact Loop.within_of_policy policy
  | unwind scope guard k =>
    exact .bind (unwindOnce_within h inFlight scope guard k) fun _ _ _ h _ => .pure h trivial
  | track scope x =>
    refine track_leads hle (fun c y c' hc hrun => ?_) fun l y l' hl hrun => ?_
    · exact hle.setScope (.conditional c') (Conditional.Within.track (hle.scope hc) hrun) scope
    · exact hle.setScope (.loop l') (Loop.Within.track (hle.scope hl) hrun) scope
  | cond guard track yes no k =>
    cases no with
    | none =>
      rw [Step.calls]
      refine .bind ((beginNew_within h inFlight guard track k).raised (by omega)) fun r s _ _ ⟨h, hc⟩ => ?_
      have hyes := Nat.le_add_right m (Step.callsAll yes)
      refine arm_within h hyes (by omega) r.1 (runSteps_within _ yes h) fun first s h => ?_
      exact (finishOn_within h (hc.mono hyes) k _).relaxed (by omega)
    | some no =>
      rw [Step.calls]
      refine .bind ((beginNew_within h inFlight guard track k).raised (by omega)) fun r s _ _ ⟨h, hc⟩ => ?_
      have hyes := Nat.le_add_right m (Step.callsAll yes)
      refine arm_within h hyes (by omega) r.1 (runSteps_within _ yes h) fun first s h => ?_
      have hmid : s.Within (m + Step.callsAll yes + 1) := h.mono (Nat.le_succ _)
      have hend : s.Within (m + (3 + Step.callsAll yes + Step.callsAll no)) := hmid.mono (by omega)
      refine beginElseOn_leads hend (fun _ => .throw hend) fun st b c st' hst hrun => ?_
      obtain ⟨hc', hst'⟩ := (hc.mono hyes).beginElse (h.store hst) hrun
      have hno := Nat.le_add_right (m + Step.callsAll yes + 1) (Step.callsAll no)
      refine arm_within (hmid.setStore hst' k) hno (by omega) b (runSteps_within _ no (hmid.setStore hst' k))
        fun second s h => ?_
      exact (finishOn_within h (hc'.mono (by omega)) k _).relaxed (by omega)
  | loop scope guard body k =>
    rw [Step.calls]
    refine .bind (rounds_within (fun h => ?_) (fun h => runSteps_within inFlight body h) roundLimit [] h) ?_
    · exact .bind (unwindOnce_within h inFlight scope guard k) fun _ _ _ h _ => .pure h trivial
    · exact fun _ _ _ h _ => .pure h trivial
  | _ =>
    exact (runStep_sheds (.refl s) inFlight rfl).mono (fun _ hk => hle.kept hk.toKept) fun _ _ _ hq => hq
theorem runSteps_within (inFlight : List Expr) (steps : List Step) {m : Nat} {s : Session} (h : s.Within m) :
    (runSteps inFlight steps).Leads s (Within (m + Step.callsAll steps)) fun _ _ => True := by
  match steps with
  | [] => exact .pure h trivial
  | step :: rest =>
    rw [Step.callsAll, ← Nat.add_assoc]
    have hstep := settle_leads (runStep_within inFlight step h)
    refine .bind (hstep.raised (Nat.le_add_right _ _)) fun a s _ _ ⟨h, _⟩ => ?_
    exact .bind (runSteps_within inFlight rest h) fun _ s _ h _ => .pure h trivial
end

theorem Step.callsAll_append (before rest : List Step) :
    callsAll (before ++ rest) = callsAll before + callsAll rest := by
  induction before with
  | nil => rw [List.nil_append, callsAll, Nat.zero_add]
  | cons step before ih => rw [List.cons_append, callsAll, callsAll, ih, Nat.add_assoc]

/-- **A run of fewer than `2 ^ 32` calls has versions of 32 bits**, after each of its steps and wherever a
version is held. -/
theorem versions_fit {config : Config} {before rest : List Step}
    (h : Step.callsAll (before ++ rest) < UInt32.size) :
    ((ofConfig config).afterAll before).Within (UInt32.size - 1) := by
  have hwithin : ((ofConfig config).afterAll before).Within (0 + Step.callsAll before) :=
    (runSteps_within [] before (ofConfig_within config)).1
  rw [Step.callsAll_append] at h
  exact hwithin.mono (by omega)

end Session

end Symex
