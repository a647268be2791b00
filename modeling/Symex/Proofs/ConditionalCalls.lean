import Symex.Proofs.ScopeFrames
import Symex.Proofs.SessionVersions

/-!
Calls on a conditional and their order. A call is in its place in certain phases and leads to one of its own,
so which calls come to a good end can be said of their list (`InOrder`). A step that makes a call writes back
the conditional and the store that the call leaves; if the call fails, they are what they were.
-/

namespace Symex

/-! ### The order of calls -/

namespace Conditional

/-- The phase that a call leads to. -/
def Call.next : Call → Phase
  | .track => .entry
  | .beginThen => .inThen
  | .beginElse => .inElse
  | .finish => .ended

/-- Whether a call is in its place in a phase. -/
def Call.fits : Call → Phase → Bool
  | .track, .entry | .beginThen, .entry | .beginElse, .inThen | .finish, .inThen | .finish, .inElse => true
  | _, _ => false

/-- The phase after calls that were in their places. -/
def phaseAfter (calls : List Call) : Phase := calls.foldl (fun _ call => call.next) .entry

/-- Calls that begin a whole life: variables are tracked, one or two arms begin, the scope ends. -/
def InOrder (calls : List Call) : Prop :=
  ∃ n second, (second = [] ∨ second = [Call.beginElse]) ∧
    calls <+: List.replicate n .track ++ .beginThen :: (second ++ [.finish])

/-- Whether calls are in their places from a phase on. -/
def placed : Phase → List Call → Bool
  | _, [] => true
  | p, call :: calls => call.fits p && placed call.next calls

theorem placed_concat {p : Phase} {calls : List Call} {call : Call} :
    placed p (calls ++ [call]) = true ↔
      placed p calls = true ∧ call.fits (calls.foldl (fun _ call => call.next) p) = true := by
  induction calls generalizing p with
  | nil => simp [placed]
  | cons c calls ih =>
    rw [List.cons_append, placed, placed, Bool.and_eq_true, Bool.and_eq_true, ih, List.foldl_cons, and_assoc]

theorem placed_of_prefix {p : Phase} {calls more : List Call} (h : calls <+: more)
    (hmore : placed p more = true) : placed p calls = true := by
  obtain ⟨rest, rfl⟩ := h
  induction calls generalizing p with
  | nil => rfl
  | cons c calls ih =>
    rw [List.cons_append, placed, Bool.and_eq_true] at hmore
    rw [placed, Bool.and_eq_true]
    exact ⟨hmore.1, ih hmore.2⟩

theorem placed_life (n : Nat) {second : List Call} (h : second = [] ∨ second = [.beginElse]) :
    placed .entry (List.replicate n .track ++ .beginThen :: (second ++ [.finish])) = true := by
  induction n with
  | zero =>
    rcases h with rfl | rfl
    · rfl
    · rfl
  | succ n ih => exact ih

/-- After an arm there is nothing but the second arm and the end. -/
theorem prefix_of_placed_inThen {calls : List Call} (h : placed .inThen calls = true) :
    ∃ second, (second = [] ∨ second = [Call.beginElse]) ∧ calls <+: second ++ [.finish] := by
  have hended : ∀ {cs}, placed .ended cs = true → cs = [] := by
    intro cs h
    cases cs with
    | nil => rfl
    | cons c cs => cases c <;> cases h
  match calls with
  | [] => exact ⟨[], .inl rfl, List.nil_prefix⟩
  | .track :: _ | .beginThen :: _ => cases h
  | .finish :: cs =>
    obtain rfl := hended h
    exact ⟨[], .inl rfl, List.prefix_refl _⟩
  | .beginElse :: [] => exact ⟨[.beginElse], .inr rfl, by simp⟩
  | .beginElse :: .finish :: cs =>
    obtain rfl := hended h
    exact ⟨[.beginElse], .inr rfl, List.prefix_refl _⟩
  | .beginElse :: .track :: _ | .beginElse :: .beginThen :: _ | .beginElse :: .beginElse :: _ => cases h

theorem inOrder_iff_placed {calls : List Call} : InOrder calls ↔ placed .entry calls = true := by
  constructor
  · rintro ⟨n, second, hsecond, hpre⟩
    exact placed_of_prefix hpre (placed_life n hsecond)
  · intro h
    induction calls with
    | nil => exact ⟨0, [], .inl rfl, List.nil_prefix⟩
    | cons c calls ih =>
      cases c with
      | track =>
        obtain ⟨n, second, hsecond, hpre⟩ := ih h
        exact ⟨n + 1, second, hsecond, List.cons_prefix_cons.2 ⟨rfl, hpre⟩⟩
      | beginThen =>
        obtain ⟨second, hsecond, hpre⟩ := prefix_of_placed_inThen h
        exact ⟨0, second, hsecond, List.cons_prefix_cons.2 ⟨rfl, hpre⟩⟩
      | beginElse => cases h
      | finish => cases h

/-- One more call is in order if it is in its place. -/
theorem inOrder_concat {calls : List Call} {call : Call} :
    InOrder (calls ++ [call]) ↔ InOrder calls ∧ call.fits (phaseAfter calls) = true := by
  rw [inOrder_iff_placed, inOrder_iff_placed]
  exact placed_concat

end Conditional

/-! ### Calls on a conditional -/

namespace Conditional

/-- A call: its answer or its failure, and the conditional, the store and the next stamp that it leaves in
either case. The variable is the one to track. -/
def perform (c : Conditional) (x : Var) (st : Store) (n : Nat) :
    Call → Except Error Session.Answer × Conditional × Store × Nat
  | .track =>
    let (tracked, c) := c.track x
    (tracked.map fun _ => .done, c, st, n)
  | .beginThen =>
    let (b, c) := c.beginThen st
    (b.map .flag, c, st, n)
  | .beginElse =>
    let (b, c, st) := c.beginElse st
    (b.map .flag, c, st, n)
  | .finish =>
    let ((closed, c, st), n) := c.finish st n
    (closed.map fun _ => .done, c, st, n)

variable {c : Conditional} {x : Var} {st : Store} {n : Nat} {call : Call}

/-- **A call that fails leaves everything.** -/
theorem perform_failed {e : Error} (h : (c.perform x st n call).1 = .error e) :
    (c.perform x st n call).2 = (c, st, n) := by
  cases call with
  | track =>
    rw [perform] at h ⊢
    rcases c.track_cases x with ⟨_, hrun⟩ | ⟨-, hrun⟩
    · rw [hrun]
    · rw [hrun] at h
      cases h
  | beginThen =>
    rw [perform] at h ⊢
    rcases c.beginThen_cases st with ⟨_, hrun⟩ | ⟨-, hrun⟩
    · rw [hrun]
    · rw [hrun] at h
      cases h
  | beginElse =>
    rw [perform] at h ⊢
    rcases c.beginElse_cases st with ⟨_, hrun⟩ | ⟨-, -, hrun⟩
    · rw [hrun]
    · rw [hrun] at h
      cases h
  | finish =>
    rw [perform] at h ⊢
    rcases c.finish_cases st n with ⟨_, hrun⟩ | ⟨yes, no, -, hrun⟩
    · rw [hrun]
    · rw [hrun] at h
      cases h

/-- A call out of its place fails by its name and the phase. -/
theorem perform_misplaced (h : call.fits c.phase = false) :
    (c.perform x st n call).1 = .error (.misplacedCall call c.phase) := by
  have hne : ∀ {p}, call.fits p = true → c.phase ≠ p := by
    rintro p hp rfl
    rw [h] at hp
    cases hp
  cases call with
  | track =>
    rw [perform, track, if_neg (hne rfl)]
    rfl
  | beginThen =>
    rw [perform, beginThen, if_neg (hne rfl)]
    rfl
  | beginElse =>
    rw [perform, beginElse, if_neg (hne rfl)]
    rfl
  | finish =>
    unfold perform finish arms
    cases hp : c.phase with
    | entry | ended => rfl
    | inThen | inElse => exact absurd hp (hne rfl)

/-- Once an arm has begun, the store has the tracked variables. -/
def Known (c : Conditional) (st : Store) : Prop := c.phase ≠ .entry → ∀ i ∈ c.vars, i < st.size

theorem Call.phase_of_fits {p : Phase} (h : call.fits p = true) :
    call = .track ∧ p = .entry ∨ call = .beginThen ∧ p = .entry ∨ call = .beginElse ∧ p = .inThen ∨
      call = .finish ∧ (p = .inThen ∨ p = .inElse) := by
  cases call <;> cases p <;> simp_all [fits]

/-- Arms over variables that are there can be compared. -/
theorem exists_arms (hp : c.phase = .inThen ∨ c.phase = .inElse) (hlt : ∀ i ∈ c.vars, i < st.size) :
    ∃ yes no, c.arms st = .ok (yes, no) := by
  unfold arms
  rcases hp with hp | hp
  · rw [hp, Store.slotsOf_eq hlt]
    exact ⟨_, _, rfl⟩
  · rw [hp, Store.slotsOf_eq hlt]
    exact ⟨_, _, rfl⟩

/-- A call in its place leads to its phase, unless a variable to be noted is not there. -/
theorem perform_placed (h : call.fits c.phase = true) (hknown : c.Known st) :
    (∃ a c' st' n', c.perform x st n call = (.ok a, c', st', n') ∧ c'.phase = call.next ∧ c'.Known st) ∨
      call = .beginThen ∧
        ∃ i ∈ c.vars, st.size ≤ i ∧ (c.perform x st n call).1 = .error (.unknownVariable i) := by
  obtain ⟨rfl, hp⟩ | ⟨rfl, hp⟩ | ⟨rfl, hp⟩ | ⟨rfl, hp⟩ := Call.phase_of_fits h
  · have hphase :
        (if x.index ∈ c.vars then c else { c with vars := c.vars ++ [x.index] }).phase = .entry := by
      split
      · exact hp
      · exact hp
    rw [perform, track, if_pos hp]
    exact .inl ⟨_, _, _, _, rfl, hphase, fun hne => absurd hphase hne⟩
  · rw [perform, beginThen, if_pos hp]
    cases hentry : st.slotsOf c.vars with
    | ok entry =>
      obtain ⟨hlt, -⟩ := Store.slotsOf_eq_ok hentry
      exact .inl ⟨_, _, _, _, rfl, rfl, fun _ => hlt⟩
    | error e =>
      obtain ⟨i, hi, hsize, rfl⟩ := Store.slotsOf_eq_error hentry
      exact .inr ⟨rfl, i, hi, hsize, rfl⟩
  · have hlt := hknown (by simp [hp])
    rw [perform, beginElse_of_known hp hlt]
    exact .inl ⟨_, _, _, _, rfl, rfl, fun _ => hlt⟩
  · have hlt := hknown (by rcases hp with hp | hp <;> simp [hp])
    obtain ⟨yes, no, harms⟩ := exists_arms hp hlt
    rw [perform, finish_of_arms harms]
    exact .inl ⟨_, _, _, _, rfl, rfl, fun _ => hlt⟩

end Conditional

/-! ### Steps that make calls -/

namespace Session

/-- The call on a conditional, with a store, that a step makes. -/
def Step.callOn? (name : String) (k : Nat) : Step → Option Conditional.Call
  | .track scope _ => if scope = name then some .track else none
  | .beginThen scope index => if scope = name ∧ index = k then some .beginThen else none
  | .beginElse scope index => if scope = name ∧ index = k then some .beginElse else none
  | .finish scope index => if scope = name ∧ index = k then some .finish else none
  | _ => none

/-- Whether a variable that a step tracks is declared. -/
def tracksDeclared (s : Session) : Step → Bool
  | .track _ x => s.vars.contains x
  | _ => true

/-- What a call on a conditional comes to: all that it leaves is written back. -/
def took (s : Session) (name : String) (k : Nat) (r : Except Error Answer × Conditional × Store × Nat) :
    Except Refusal Answer × Session :=
  (r.1.mapError .failed,
    { s with
      scopes := s.scopes.put name (.conditional r.2.1)
      stores := s.stores.set k r.2.2.1
      next := r.2.2.2 })

section
variable {s : Session} {name : String} {k : Nat} {c : Conditional} {step : Step} {call : Conditional.Call}

theorem stores_getElem? (hk : k < s.stores.length) : s.stores[k]? = some (s.storeAt k) := by
  simp [storeAt, hk]

theorem set_storeAt (hk : k < s.stores.length) : s.stores.set k (s.storeAt k) = s.stores := by
  simp [storeAt, hk]

theorem Step.of_callOn? (h : step.callOn? name k = some call) :
    (∃ y, step = .track name y ∧ call = .track) ∨ step = .beginThen name k ∧ call = .beginThen ∨
      step = .beginElse name k ∧ call = .beginElse ∨ step = .finish name k ∧ call = .finish := by
  cases step with
  | track scope y =>
    rw [callOn?, Option.ite_none_right_eq_some] at h
    obtain ⟨hscope, hcall⟩ := h
    exact .inl ⟨y, by rw [hscope], (Option.some.inj hcall).symm⟩
  | beginThen scope index =>
    rw [callOn?, Option.ite_none_right_eq_some] at h
    obtain ⟨⟨hscope, hindex⟩, hcall⟩ := h
    exact .inr (.inl ⟨by rw [hscope, hindex], (Option.some.inj hcall).symm⟩)
  | beginElse scope index =>
    rw [callOn?, Option.ite_none_right_eq_some] at h
    obtain ⟨⟨hscope, hindex⟩, hcall⟩ := h
    exact .inr (.inr (.inl ⟨by rw [hscope, hindex], (Option.some.inj hcall).symm⟩))
  | finish scope index =>
    rw [callOn?, Option.ite_none_right_eq_some] at h
    obtain ⟨⟨hscope, hindex⟩, hcall⟩ := h
    exact .inr (.inr (.inr ⟨by rw [hscope, hindex], (Option.some.inj hcall).symm⟩))
  | _ => cases h

/-- A step that makes a call comes to what the call does. -/
theorem runStep_call (hc : s.scopes.find? name = some (.conditional c)) (hk : k < s.stores.length)
    (hcall : step.callOn? name k = some call) (hvar : s.tracksDeclared step = true) :
    ∃ x, (runStep [] step).run.run s = s.took name k (c.perform x (s.storeAt k) s.next call) := by
  have hcond := Run.run_conditional hc
  have hstore := Run.run_store (stores_getElem? hk)
  obtain ⟨y, rfl, rfl⟩ | ⟨rfl, rfl⟩ | ⟨rfl, rfl⟩ | ⟨rfl, rfl⟩ := Step.of_callOn? hcall
  · obtain ⟨x, hx⟩ := Option.isSome_iff_exists.1 hvar
    have hrun : (var y).run.run s = (.ok x, s) := by
      show (need y (s.vars.find? y)).run.run s = _
      rw [hx]
      rfl
    refine ⟨x, ?_⟩
    have hneed : (need name (s.scopes.find? name)).run.run s = (.ok (.conditional c), s) := by
      rw [hc]
      rfl
    show (var y >>= _).run.run s = _
    rw [Run.run_bind_ok hrun]
    show (need name (s.scopes.find? name) >>= _).run.run s = _
    rw [Run.run_bind_ok hneed, Conditional.perform, took, set_storeAt hk]
    dsimp only
    generalize c.track x = r
    obtain ⟨_ | _, c'⟩ := r
    · rfl
    · rfl
  · refine ⟨default, ?_⟩
    show (conditional name >>= _).run.run s = _
    rw [Run.run_bind_ok hcond, Run.run_bind_ok hstore, Conditional.perform, took, set_storeAt hk]
    generalize c.beginThen (s.storeAt k) = r
    obtain ⟨_ | _, c'⟩ := r
    · rfl
    · rfl
  · refine ⟨default, ?_⟩
    show (conditional name >>= _).run.run s = _
    rw [Run.run_bind_ok hcond, beginElseOn, bind_assoc, Run.run_bind_ok hstore, Conditional.perform, took]
    generalize c.beginElse (s.storeAt k) = r
    obtain ⟨_ | _, c', st⟩ := r
    · rfl
    · rfl
  · refine ⟨default, ?_⟩
    show (conditional name >>= _).run.run s = _
    rw [Run.run_bind_ok hcond, finishOn, bind_assoc, Run.run_bind_ok hstore, bind_assoc, Conditional.perform,
      took]
    have hmint : (mint (c.finish (s.storeAt k))).run.run s =
        (.ok (c.finish (s.storeAt k) s.next).1, { s with next := (c.finish (s.storeAt k) s.next).2 }) := rfl
    rw [Run.run_bind_ok hmint]
    generalize c.finish (s.storeAt k) s.next = r
    obtain ⟨⟨_ | _, c', st⟩, n⟩ := r
    · rfl
    · rfl

/-- **A step whose call fails leaves the session as it was.** -/
theorem took_failed {x : Var} {e : Error} (hc : s.scopes.find? name = some (.conditional c))
    (hk : k < s.stores.length) (h : (c.perform x (s.storeAt k) s.next call).1 = .error e) :
    s.took name k (c.perform x (s.storeAt k) s.next call) = (.error (.failed e), s) := by
  rw [took, h, Conditional.perform_failed h]
  dsimp only
  rw [set_storeAt hk, setScope_of_find? hc]
  rfl

end

end Session

end Symex
