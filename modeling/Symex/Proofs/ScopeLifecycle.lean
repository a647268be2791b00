import Symex.Proofs.ConditionalCalls
import Symex.Proofs.Unwinding

/-!
The life of a scope. A conditional goes through its phases in one order, whatever happens between the calls on
it. A call that comes out of order is refused and leaves the session as it was, so a run does not notice if
such calls are left out. A loop is unwound as long as every guard may hold and its bound is not used up; the
first call after that joins, and all others do nothing.
-/

namespace Symex

namespace Session

/-! ### Calls in a run -/

/-- The calls that were not refused. -/
def acceptedCalls (name : String) (k : Nat) (trace : List (Step × Except Refusal Answer)) :
    List Conditional.Call :=
  trace.filterMap fun p => if p.2.isOk then p.1.callOn? name k else none

/-- A run without the calls that were refused. -/
def withoutRefused (name : String) (k : Nat) (trace : List (Step × Except Refusal Answer)) :
    List (Step × Except Refusal Answer) :=
  trace.filter fun p => (p.1.callOn? name k).isNone || p.2.isOk

/-- Whether a step is a call on a conditional, with a store, or spares it. -/
def callsOrSpares (name : String) (k : Nat) (s : Session) (step : Step) : Bool :=
  step.spares name || (step.callOn? name k).isSome && s.tracksDeclared step

/-- What a call comes to after those that were accepted. It is in order and has an answer; it is out of order
and refused by its name and the phase; or it begins the first arm, and a variable that it has to note is not
there. A call that is refused leaves the session as it was. -/
inductive Answered (k : Nat) (accepted : List Conditional.Call) (call : Conditional.Call) (c : Conditional)
    (s : Session) : Except Refusal Answer × Session → Prop
  | inOrder {a : Answer} {s' : Session} (h : Conditional.InOrder (accepted ++ [call])) :
    Answered k accepted call c s (.ok a, s')
  | misplaced (h : ¬Conditional.InOrder (accepted ++ [call])) :
    Answered k accepted call c s (.error (.failed (.misplacedCall call c.phase)), s)
  | unknown {i : Nat} (h : Conditional.InOrder (accepted ++ [call])) (hcall : call = .beginThen)
    (hi : i ∈ c.vars) (hsize : (s.storeAt k).size ≤ i) :
    Answered k accepted call c s (.error (.failed (.unknownVariable i)), s)

theorem Answered.same {k : Nat} {accepted : List Conditional.Call} {call : Conditional.Call} {c : Conditional}
    {s : Session} {r : Except Refusal Answer × Session} (h : Answered k accepted call c s r)
    (hr : r.1.isOk = false) : r.2 = s := by
  cases h with
  | inOrder h => cases hr
  | misplaced h => rfl
  | unknown h hcall hi hsize => rfl

/-- A conditional is where the accepted calls have brought it. -/
structure Follows (name : String) (k : Nat) (accepted : List Conditional.Call) (s : Session)
    (c : Conditional) : Prop where
  scope_eq : s.scopes.find? name = some (.conditional c)
  store_lt : k < s.stores.length
  phase_eq : c.phase = Conditional.phaseAfter accepted
  known : c.Known (s.storeAt k)
  inOrder : Conditional.InOrder accepted

section
variable {s : Session} {name : String} {k : Nat} {c : Conditional} {step : Step} {call : Conditional.Call}
  {accepted : List Conditional.Call}

theorem Step.callOn?_of_spares (h : step.spares name = true) : step.callOn? name k = none := by
  cases hcall : step.callOn? name k with
  | none => rfl
  | some call =>
    obtain ⟨y, rfl, -⟩ | ⟨rfl, -⟩ | ⟨rfl, -⟩ | ⟨rfl, -⟩ := Step.of_callOn? hcall <;> simp [Step.spares] at h

theorem tracksDeclared_of_call (hstep : callsOrSpares name k s step = true)
    (hcall : step.callOn? name k = some call) : s.tracksDeclared step = true := by
  rcases Bool.or_eq_true_iff.1 hstep with hspares | hdeclared
  · rw [Step.callOn?_of_spares hspares] at hcall
    cases hcall
  · exact (Bool.and_eq_true_iff.1 hdeclared).2

/-- A step that spares a conditional lets stores evolve, and they lose no variable. -/
theorem Follows.spares (h : Follows name k accepted s c) (hstep : step.spares name = true) :
    Follows name k accepted (s.after step) c := by
  have hev := (runStep_evolves [] step (.refl s)).1
  refine ⟨(runStep_spares [] hstep h.scope_eq).1, Nat.lt_of_lt_of_le h.store_lt hev.length_le, h.phase_eq,
    fun hp i hi => ?_, h.inOrder⟩
  exact Nat.lt_of_lt_of_le (h.known hp i hi) (hev.store k).size_le

theorem Follows.inOrder_iff (h : Follows name k accepted s c) :
    Conditional.InOrder (accepted ++ [call]) ↔ call.fits c.phase = true := by
  rw [Conditional.inOrder_concat, h.phase_eq]
  exact and_iff_right h.inOrder

/-- A call that is refused is not accepted, and leaves everything. -/
theorem Follows.refused (h : Follows name k accepted s c) {r : Refusal}
    (hrun : (runStep [] step).run.run s = (.error r, s)) :
    Follows name k (accepted ++ acceptedCalls name k [(step, .error r)]) (s.after step) c := by
  have hafter : s.after step = s := congrArg Prod.snd hrun
  have hnone : acceptedCalls name k [(step, .error r)] = [] := rfl
  rw [hafter, hnone, List.append_nil]
  exact h

/-- A call that is answered is accepted, and leads to its phase. -/
theorem Follows.takes (h : Follows name k accepted s c) (hcall : step.callOn? name k = some call)
    (hfits : call.fits c.phase = true) {a : Answer} {c' : Conditional} {st : Store} {n : Nat}
    (hrun : (runStep [] step).run.run s = s.took name k (.ok a, c', st, n)) (hphase : c'.phase = call.next)
    (hknown : c'.Known (s.storeAt k)) :
    Follows name k (accepted ++ acceptedCalls name k [(step, .ok a)]) (s.after step) c' := by
  have hev : s.Evolves (s.after step) := (runStep_evolves [] step (.refl s)).1
  have hafter : s.after step = (s.took name k (.ok a, c', st, n)).2 := congrArg Prod.snd hrun
  have hone : acceptedCalls name k [(step, .ok a)] = [call] := by
    simp [acceptedCalls, Except.isOk, Except.toBool, hcall]
  rw [hone]
  refine ⟨?_, Nat.lt_of_lt_of_le h.store_lt hev.length_le, ?_, fun hp i hi => ?_, h.inOrder_iff.2 hfits⟩
  · rw [hafter]
    exact Table.find?_put_self name (.conditional c') s.scopes
  · rw [hphase, Conditional.phaseAfter, List.foldl_append]
    rfl
  · exact Nat.lt_of_lt_of_le (hknown hp i hi) (hev.store k).size_le

/-- **A call in a state that accepted calls have led to.** -/
theorem Follows.answered (h : Follows name k accepted s c) (hcall : step.callOn? name k = some call)
    (hvar : s.tracksDeclared step = true) :
    Answered k accepted call c s ((runStep [] step).run.run s) ∧
      ∃ c', Follows name k (accepted ++ acceptedCalls name k [(step, ((runStep [] step).run.run s).1)])
        (s.after step) c' := by
  obtain ⟨x, hrun⟩ := runStep_call h.scope_eq h.store_lt hcall hvar
  by_cases hfits : call.fits c.phase = true
  · have hin : Conditional.InOrder (accepted ++ [call]) := h.inOrder_iff.2 hfits
    rcases Conditional.perform_placed (x := x) (n := s.next) hfits h.known with
      ⟨a, c', st, n, hp, hphase, hknown⟩ | ⟨hbegin, i, hi, hsize, hp⟩
    · rw [hp] at hrun
      have hnext := h.takes hcall hfits hrun hphase hknown
      rw [hrun]
      exact ⟨.inOrder hin, c', hnext⟩
    · rw [took_failed h.scope_eq h.store_lt hp] at hrun
      have hnext := h.refused hrun
      rw [hrun]
      exact ⟨.unknown hin hbegin hi hsize, c, hnext⟩
  · rw [took_failed h.scope_eq h.store_lt (Conditional.perform_misplaced (by simpa using hfits))] at hrun
    have hnext := h.refused hrun
    rw [hrun]
    exact ⟨.misplaced (mt h.inOrder_iff.1 hfits), c, hnext⟩

theorem acceptedCalls_cons (p : Step × Except Refusal Answer) (rest : List (Step × Except Refusal Answer)) :
    acceptedCalls name k (p :: rest) = acceptedCalls name k [p] ++ acceptedCalls name k rest :=
  List.filterMap_append (l := [p])

/-- **One step of a run**, be it a call or not. -/
theorem Follows.afterStep (h : Follows name k accepted s c) (hstep : callsOrSpares name k s step = true) :
    ∃ c', Follows name k (accepted ++ acceptedCalls name k [(step, ((runStep [] step).run.run s).1)])
      (s.after step) c' := by
  rcases Bool.or_eq_true_iff.1 hstep with hspares | hcall
  · have hnone : acceptedCalls name k [(step, ((runStep [] step).run.run s).1)] = [] := by
      simp [acceptedCalls, Step.callOn?_of_spares hspares]
    rw [hnone, List.append_nil]
    exact ⟨c, h.spares hspares⟩
  · obtain ⟨hsome, hvar⟩ := Bool.and_eq_true_iff.1 hcall
    obtain ⟨call, hcall⟩ := Option.isSome_iff_exists.1 hsome
    exact (h.answered hcall hvar).2

/-- **A whole run.** The induction is on its steps, from the state that each of them finds. -/
theorem Follows.afterAll (h : Follows name k accepted s c) {steps : List Step}
    (hsteps : along (callsOrSpares name k) s steps = true) :
    ∃ c', Follows name k (accepted ++ acceptedCalls name k (s.trace steps)) (s.afterAll steps) c' := by
  induction steps generalizing s c accepted with
  | nil =>
    refine ⟨c, ?_⟩
    rw [trace, acceptedCalls, List.filterMap_nil, List.append_nil]
    exact h
  | cons step steps ih =>
    obtain ⟨hstep, hrest⟩ := Bool.and_eq_true_iff.1 hsteps
    obtain ⟨c', h'⟩ := h.afterStep hstep
    rw [trace, acceptedCalls_cons, ← List.append_assoc, afterAll_cons]
    exact ih h' hrest

/-- **Refused calls can be left out**: the other steps have the same results, and lead to the same state. -/
theorem Follows.trace_withoutRefused (h : Follows name k accepted s c) {steps : List Step}
    (hsteps : along (callsOrSpares name k) s steps = true) :
    s.trace ((withoutRefused name k (s.trace steps)).map Prod.fst) = withoutRefused name k (s.trace steps) ∧
      s.afterAll ((withoutRefused name k (s.trace steps)).map Prod.fst) = s.afterAll steps := by
  induction steps generalizing s c accepted with
  | nil => exact ⟨rfl, rfl⟩
  | cons step steps ih =>
    obtain ⟨hstep, hrest⟩ := Bool.and_eq_true_iff.1 hsteps
    obtain ⟨c', h'⟩ := h.afterStep hstep
    obtain ⟨htrace, hafter⟩ := ih h' hrest
    rw [trace, withoutRefused, List.filter_cons]
    split
    · rw [List.map_cons, trace, afterAll_cons, afterAll_cons]
      exact ⟨congrArg _ htrace, hafter⟩
    · next hp =>
      obtain ⟨hsome, hresult⟩ : step.callOn? name k ≠ none ∧
          ((runStep [] step).run.run s).1.isOk = false := by simpa using hp
      obtain ⟨call, hcall⟩ := Option.ne_none_iff_exists'.1 hsome
      have hvar := tracksDeclared_of_call hstep hcall
      have hsame : s.after step = s := (h.answered hcall hvar).1.same hresult
      rw [afterAll_cons]
      rw [hsame] at htrace hafter ⊢
      exact ⟨htrace, hafter⟩

end

/-- The life of a conditional in a run: each call on it is answered as the calls before it require, the steps
are answered as their results say, and the answers and the last state are the same without the calls that
were refused. -/
structure ConditionalLife (name : String) (k : Nat) (s : Session) (steps : List Step) : Prop where
  answered : ∀ before step rest call, steps = before ++ step :: rest → step.callOn? name k = some call →
    ∃ c, (s.afterAll before).scopes.find? name = some (.conditional c) ∧
      c.phase = Conditional.phaseAfter (acceptedCalls name k (s.trace before)) ∧
      Answered k (acceptedCalls name k (s.trace before)) call c (s.afterAll before)
        ((runStep [] step).run.run (s.afterAll before))
  answers : (runSteps [] steps).run.run s =
    (.ok ((s.trace steps).map fun p => answerOf p.2), s.afterAll steps)
  skipped : (runSteps [] ((withoutRefused name k (s.trace steps)).map Prod.fst)).run.run s =
    (.ok ((withoutRefused name k (s.trace steps)).map fun p => answerOf p.2), s.afterAll steps)

theorem Follows.conditionalLife {s : Session} {name : String} {k : Nat} {c : Conditional} {steps : List Step}
    (h : Follows name k [] s c) (hsteps : along (callsOrSpares name k) s steps = true) :
    ConditionalLife name k s steps where
  answered := by
    rintro before step rest call rfl hcall
    rw [along_append, Bool.and_eq_true] at hsteps
    obtain ⟨hbefore, hfrom⟩ := hsteps
    obtain ⟨hstep, -⟩ := Bool.and_eq_true_iff.1 hfrom
    obtain ⟨c', h'⟩ := h.afterAll hbefore
    rw [List.nil_append] at h'
    exact ⟨c', h'.scope_eq, h'.phase_eq, (h'.answered hcall (tracksDeclared_of_call hstep hcall)).1⟩
  answers := runSteps_eq_trace s steps
  skipped := by
    obtain ⟨htrace, hafter⟩ := h.trace_withoutRefused hsteps
    rw [runSteps_eq_trace, htrace, hafter]

end Session

/-! ### Loops -/

/-- Whether a guard is not concretely false. -/
def Tracked.mayHold (g : Tracked) : Bool := !g.concrete || g.isTrue

namespace Loop

/-- Whether the last of some guards is one to unwind for: none of them is concretely false, and there are no
more of them than the bound allows. -/
def goesOn (bound : Nat) (gs : List Tracked) : Bool := gs.length ≤ bound && gs.all Tracked.mayHold

theorem goesOn_concat {bound : Nat} {gs : List Tracked} {g : Tracked} :
    goesOn bound (gs ++ [g]) = true ↔
      goesOn bound gs = true ∧ gs.length < bound ∧ g.mayHold = true := by
  simp only [goesOn, List.length_append, List.length_singleton, List.all_append, List.all_cons, List.all_nil,
    Bool.and_true, Bool.and_eq_true, decide_eq_true_eq]
  constructor
  · rintro ⟨hlt, hgs, hg⟩
    exact ⟨⟨by omega, hgs⟩, by omega, hg⟩
  · rintro ⟨⟨-, hgs⟩, hlt, hg⟩
    exact ⟨hlt, hgs, hg⟩

/-- A loop that was given a bound, after calls that tracked variables and unwound it for guards, each with a
store that has the tracked variables. -/
inductive Reached (bound : Nat) : List Tracked → Loop → Prop
  | start : Reached bound [] { policy := .bounded bound }
  | track {gs : List Tracked} {l l' : Loop} {x : Var} (h : Reached bound gs l)
    (hl : l.track x = (.ok (), l')) : Reached bound gs l'
  | unwind {gs : List Tracked} {l : Loop} (h : Reached bound gs l) (st : Store)
    (hst : ∀ i ∈ l.vars, i < st.size) (g : Tracked) (n : Nat) :
    Reached bound (gs ++ [g]) (l.unwind st g n).1.2.1

/-- Where a loop is after some guards. -/
structure Stage (bound : Nat) (gs : List Tracked) (l : Loop) : Prop where
  phase_eq : l.phase = if gs = [] then .entry else if goesOn bound gs then .unwinding else .ended
  policy_eq : goesOn bound gs = true → l.policy = .bounded (bound - gs.length)

/-- What unwinding for another guard comes to: it goes on or not, only the first answer that it does not may
change the store, and nothing changes after that. -/
structure Unrolls (bound : Nat) (gs : List Tracked) (g : Tracked) (l : Loop) (st : Store) (n : Nat)
    (r : (Except Error Bool × Loop × Store) × Nat) : Prop where
  answer : r.1.1 = .ok (goesOn bound (gs ++ [g]))
  store : goesOn bound (gs ++ [g]) = true → r.1.2.2 = st
  ended : goesOn bound gs = false → r = ((.ok false, l, st), n)

theorem joinFrom_ok {its : List Iteration} {vars : List Nat} {st : Store} (hlt : ∀ i ∈ vars, i < st.size)
    (position n : Nat) : (joinFrom its st position vars n).1.1 = .ok () := by
  induction vars generalizing st position n with
  | nil => rfl
  | cons i vars ih =>
    rw [List.forall_mem_cons] at hlt
    unfold joinFrom
    rw [Store.slot_eq hlt.1]
    dsimp only
    split
    · exact ih hlt.2 _ _
    · refine ih ?_ _ _
      intro j hj
      rw [Store.size_put]
      exact hlt.2 j hj

theorem join_ok {l : Loop} {st : Store} (hlt : ∀ i ∈ l.vars, i < st.size) (n : Nat) :
    (l.join st n).1.1 = .ok () := by
  unfold join
  split
  · rfl
  · exact joinFrom_ok hlt 0 n

section
variable {bound : Nat} {gs : List Tracked} {l : Loop}

theorem Stage.track (h : Stage bound gs l) {x : Var} {l' : Loop} (hl : l.track x = (.ok (), l')) :
    Stage bound gs l' := by
  obtain ⟨-, rfl⟩ := Loop.track_eq_ok hl
  split
  · exact h
  · exact ⟨h.phase_eq, h.policy_eq⟩

theorem Stage.phase_ne_ended (h : Stage bound gs l) (hgs : goesOn bound gs = true) : l.phase ≠ .ended := by
  rw [h.phase_eq, if_pos hgs]
  split
  · simp
  · simp

theorem Stage.phase_eq_ended (h : Stage bound gs l) (hgs : goesOn bound gs = false) : l.phase = .ended := by
  have hne : gs ≠ [] := by
    rintro rfl
    cases hgs
  rw [h.phase_eq, if_neg hne, if_neg (by simp [hgs])]

theorem stage_concat {l : Loop} {g : Tracked}
    (hphase : l.phase = if goesOn bound (gs ++ [g]) then .unwinding else .ended)
    (hpolicy : goesOn bound (gs ++ [g]) = true → l.policy = .bounded (bound - (gs.length + 1))) :
    Stage bound (gs ++ [g]) l := by
  have hne : gs ++ [g] ≠ [] := by simp
  refine ⟨?_, fun hgs => ?_⟩
  · rw [hphase, if_neg hne]
  · rw [hpolicy hgs, List.length_append, List.length_singleton]

/-- As long as guards may hold and the bound is not used up, the loop notes the states. -/
theorem Stage.unwind_more (h : Stage bound gs l) {st : Store} (hst : ∀ i ∈ l.vars, i < st.size) {g : Tracked}
    (hnext : goesOn bound (gs ++ [g]) = true) (n : Nat) :
    l.unwind st g n = ((.ok true,
      { l with
        policy := .bounded (bound - (gs.length + 1))
        iterations := l.iterations ++ [⟨g, l.vars.map st.state⟩]
        phase := .unwinding }, st), n) := by
  obtain ⟨hgs, hlt, hg⟩ := goesOn_concat.1 hnext
  obtain ⟨m, hm⟩ : ∃ m, bound - gs.length = m + 1 := ⟨bound - gs.length - 1, by omega⟩
  have hleft : bound - (gs.length + 1) = m := by omega
  have hask : (if !g.concrete || g.isTrue then l.policy.ask g else (false, l.policy)) =
      (true, .bounded m) := by
    have hg : (!g.concrete || g.isTrue) = true := hg
    rw [if_pos hg, h.policy_eq hgs, hm]
    rfl
  unfold Loop.unwind
  rw [if_neg (h.phase_ne_ended hgs)]
  dsimp only
  rw [hask, if_pos rfl, Store.slotsOf_eq hst, hleft]
  rfl

/-- The first guard that is concretely false or beyond the bound ends the loop. -/
theorem Stage.unwind_last (h : Stage bound gs l) {st : Store} (hst : ∀ i ∈ l.vars, i < st.size) {g : Tracked}
    (hgs : goesOn bound gs = true) (hnext : goesOn bound (gs ++ [g]) = false) (n : Nat) :
    ∃ st' n', l.unwind st g n = ((.ok false, { l with phase := .ended }, st'), n') := by
  have hstop : bound - gs.length = 0 ∨ g.mayHold = false := by
    by_cases hlt : gs.length < bound
    · right
      cases hg : g.mayHold with
      | false => rfl
      | true =>
        rw [goesOn_concat.2 ⟨hgs, hlt, hg⟩] at hnext
        cases hnext
    · left
      omega
  have hp := h.phase_ne_ended hgs
  have hpolicy := h.policy_eq hgs
  obtain ⟨policy, vars, iterations, phase⟩ := l
  subst hpolicy
  have hjoin := join_ok (l := ⟨.bounded (bound - gs.length), vars, iterations, .unwinding⟩) hst n
  rw [Loop.unwind_last hp hstop, Mint.bind_apply]
  generalize join _ st n = r at hjoin
  obtain ⟨⟨answer, st'⟩, n'⟩ := r
  cases hjoin
  exact ⟨st', n', rfl⟩

/-- **One call.** -/
theorem Stage.unwind (h : Stage bound gs l) {st : Store} (hst : ∀ i ∈ l.vars, i < st.size) (g : Tracked)
    (n : Nat) : Unrolls bound gs g l st n (l.unwind st g n) ∧
      Stage bound (gs ++ [g]) (l.unwind st g n).1.2.1 := by
  cases hnext : goesOn bound (gs ++ [g]) with
  | true =>
    obtain ⟨hgs, -, -⟩ := goesOn_concat.1 hnext
    rw [h.unwind_more hst hnext n]
    refine ⟨⟨by rw [hnext], fun _ => rfl, fun hended => ?_⟩, stage_concat (by rw [hnext]; rfl) fun _ => rfl⟩
    rw [hgs] at hended
    cases hended
  | false =>
    have hnot : ¬goesOn bound (gs ++ [g]) = true := by simp [hnext]
    cases hgs : goesOn bound gs with
    | true =>
      obtain ⟨st', n', hrun⟩ := h.unwind_last hst hgs hnext n
      rw [hrun]
      refine ⟨⟨by rw [hnext], fun hon => absurd hon hnot, fun hended => ?_⟩,
        stage_concat (by rw [hnext]; rfl) fun hon => absurd hon hnot⟩
      rw [hgs] at hended
      cases hended
    | false =>
      have hp := h.phase_eq_ended hgs
      have hrun : l.unwind st g n = ((.ok false, l, st), n) := by
        unfold Loop.unwind
        rw [if_pos hp]
        rfl
      rw [hrun]
      exact ⟨⟨by rw [hnext], fun _ => rfl, fun _ => rfl⟩,
        stage_concat (by rw [hnext]; exact hp) fun hon => absurd hon hnot⟩

/-- **All calls.** -/
theorem Reached.stage (h : Reached bound gs l) : Stage bound gs l := by
  induction h with
  | start => exact ⟨rfl, fun _ => rfl⟩
  | track h hl ih => exact ih.track hl
  | unwind h st hst g n ih => exact (ih.unwind hst g n).2

theorem Stage.phase_eq_entry_iff (h : Stage bound gs l) : l.phase = .entry ↔ gs = [] := by
  rw [h.phase_eq]
  split
  · next hgs => simp [hgs]
  · next hgs =>
    split
    · simp [hgs]
    · simp [hgs]

end

/-- The life of a loop: how it answers another guard, and that variables are tracked before the first. -/
structure Life (bound : Nat) (gs : List Tracked) (l : Loop) : Prop where
  unwind : ∀ st : Store, (∀ i ∈ l.vars, i < st.size) → ∀ g n, Unrolls bound gs g l st n (l.unwind st g n)
  track : ∀ x, (gs = [] → ∃ l', l.track x = (.ok (), l')) ∧
    (gs ≠ [] → l.track x = (.error (.lateTrack l.phase), l))

/-- **A loop lives in order.** With a bound and over variables that are there, it is unwound until a guard is
concretely false or the bound is used up, joins once, and is over. -/
theorem lives_in_order {bound : Nat} {gs : List Tracked} {l : Loop} (h : Reached bound gs l) :
    Life bound gs l where
  unwind st hst g n := (h.stage.unwind hst g n).1
  track x := by
    refine ⟨fun hgs => ?_, fun hgs => ?_⟩
    · rw [Loop.track, if_pos (h.stage.phase_eq_entry_iff.2 hgs)]
      exact ⟨_, rfl⟩
    · rw [Loop.track, if_neg (mt h.stage.phase_eq_entry_iff.1 hgs)]

end Loop

namespace Session

/-- **A conditional lives in order.** In every run that starts with a new conditional and uses it with one
store, calls on it are answered if they are in order and else refused without a trace. -/
theorem conditional_lives_in_order {s : Session} {name : String} {guard : Tracked} {k : Nat} {steps : List Step}
    (hscope : s.scopes.find? name = some (.conditional { guard })) (hk : k < s.stores.length)
    (hsteps : along (callsOrSpares name k) s steps = true) : ConditionalLife name k s steps := by
  have hstart : Follows name k [] s { guard } :=
    ⟨hscope, hk, rfl, fun hp => absurd rfl hp, 0, [], .inl rfl, List.nil_prefix⟩
  exact hstart.conditionalLife hsteps

/-- **Scopes live in order**: the conditionals of every run, and the loops over variables that are there. -/
theorem scopes_live_in_order {s : Session} {name : String} {guard : Tracked} {k : Nat} {steps : List Step}
    (hscope : s.scopes.find? name = some (.conditional { guard })) (hk : k < s.stores.length)
    (hsteps : along (callsOrSpares name k) s steps = true) {bound : Nat} {gs : List Tracked} {l : Loop}
    (hl : Loop.Reached bound gs l) : ConditionalLife name k s steps ∧ Loop.Life bound gs l :=
  ⟨conditional_lives_in_order hscope hk hsteps, Loop.lives_in_order hl⟩

/-- A guard that is not concrete. -/
def freeGuard : Tracked := (Tracked.any "G" .bool 0).1

/-- One variable in a store and two in another, of which the second has no counterpart in the first; and a
new conditional. -/
def newChoice : Session :=
  { (ofConfig {}).afterAll [.declare "x" (.any "X" .int) 0, .newStore, .declare "a" (.new (.int 1)) 1,
      .declare "b" (.new (.int 2)) 1] with
    scopes := [("c", .conditional { guard := freeGuard })] }

/-- Calls on it, four of them refused. The first arm can begin once the store has a second variable. -/
def stumbling : List Step :=
  [.finish "c" 0, .track "c" "b", .beginThen "c" 0, .declare "y" (.new (.int 3)) 0, .beginThen "c" 0,
    .track "c" "x", .set "y" (.get "x" 0) 0, .beginElse "c" 0, .finish "c" 0, .beginElse "c" 0]

/-- The loop may go on once, and is asked three times. -/
theorem stumbling_lives_in_order :
    (along (callsOrSpares "c" 0) newChoice stumbling = true ∧ ConditionalLife "c" 0 newChoice stumbling) ∧
      acceptedCalls "c" 0 (newChoice.trace stumbling) = [.track, .beginThen, .beginElse, .finish] ∧
      ∃ l, Loop.Reached 1 [freeGuard, freeGuard, .new (.bool true)] l ∧
        Loop.Life 1 [freeGuard, freeGuard, .new (.bool true)] l := by
  have hscope : newChoice.scopes.find? "c" = some (.conditional { guard := freeGuard }) := rfl
  have hk : 0 < newChoice.stores.length := by decide +kernel
  have hsteps : along (callsOrSpares "c" 0) newChoice stumbling = true := by decide +kernel
  have hbound : Loop.Reached 1 [] { policy := .bounded 1, vars := [0] } :=
    Loop.Reached.start.track (x := ⟨0, .int⟩) rfl
  have hfirst := hbound.unwind (newChoice.storeAt 0) (by decide +kernel) freeGuard 9
  have hlast := hfirst.unwind (newChoice.storeAt 0) (by decide +kernel) freeGuard 9
  have hover := hlast.unwind (newChoice.storeAt 0) (by decide +kernel) (.new (.bool true)) 9
  have h := scopes_live_in_order hscope hk hsteps hover
  exact ⟨⟨hsteps, h.1⟩, by decide +kernel, _, hover, h.2⟩

end Session

end Symex
