import Symex.Proofs.NestedConditionals

/-!
Loops and nested conditionals over a whole session. A guard and a body are anything that calls on the
session can do. A loop runs them until it ends (`unwindAll`); conditionals, one inside the other, run them
at most so many times (`nestedIfs`). Both come to the same variables, as long as no call takes a companion
from outside or reads a variable as what it is not.
-/

namespace Symex

namespace Session

/-! ### Calls -/

/-- States that calls lead to. The calls take no companion from outside, and read variables as what they
are. -/
inductive Reaches : Session → Session → Prop
  | refl (s : Session) : Reaches s s
  | call {s s' : Session} (inFlight : List Expr) (step : Step) (hplain : step.plain = true)
    (hreads : s.readsFit step = true) (h : Reaches ((runStep inFlight step).run.run s).2 s') : Reaches s s'

section
variable {D : Ledger} {s₀ s s' : Session}

theorem Reaches.evolves (h : s.Reaches s') (hs : s₀.Evolves s) : s₀.Evolves s' := by
  induction h with
  | refl s => exact hs
  | call inFlight step _ _ _ ih => exact ih (runStep_evolves inFlight step hs).1

theorem Reaches.ties (h : s.Reaches s') (hs : s.TiedAt D s.next) : TiedFrom D s.next s' := by
  induction h generalizing D with
  | refl s => exact hs.start
  | call inFlight step hplain hreads _ ih =>
    obtain ⟨D', hc, hle, hs'⟩ := (runStep_ties hs inFlight hplain hreads).1
    obtain ⟨D'', hc', hle', hs''⟩ := ih hs'
    exact ⟨D'', hc.trans hc' hle, Nat.le_trans hle hle', hs''⟩

theorem Reaches.trans {s'' : Session} (h : s.Reaches s') (h' : s'.Reaches s'') : s.Reaches s'' := by
  induction h with
  | refl s => exact h'
  | call inFlight step hplain hreads _ ih => exact .call inFlight step hplain hreads (ih h')

/-- Calls that are checked one after another. -/
theorem reaches_afterAll {steps : List Step}
    (h : along (fun s step => step.plain && s.readsFit step) s steps = true) : s.Reaches (s.afterAll steps) := by
  refine invariant_afterAll (I := s.Reaches) (fun s' step hs' hok => ?_) (.refl s) h
  obtain ⟨hplain, hreads⟩ : step.plain = true ∧ s'.readsFit step = true := by simpa using hok
  exact hs'.trans (.call [] step hplain hreads (.refl _))

end

/-! ### Two ways to run a body -/

/-- The state with a store and a next stamp. -/
def withStore (s : Session) (k : Nat) (st : Store) (next : Nat) : Session :=
  { s with stores := s.stores.set k st, next }

/-- Ends a conditional on a store. -/
def close (s : Session) (k : Nat) (c : Conditional) : Except Error Session := do
  let ((closed, _, st), next) := c.finish (s.storeAt k) s.next
  closed
  return s.withStore k st next

theorem close_eq_ok {s : Session} {k n : Nat} {c c' : Conditional} {st : Store}
    (h : c.finish (s.storeAt k) s.next = ((.ok (), c', st), n)) : s.close k c = .ok (s.withStore k st n) := by
  rw [close, h]
  rfl

section
variable (guard : Session → Tracked × Session) (body : Session → Session) (k : Nat)

/-- Runs the body until the loop ends, on a store. -/
def unwindAll : Nat → Loop → Session → Except Refusal Session
  | 0, _, _ => .error .endless
  | fuel + 1, l, s =>
    let (g, s) := guard s
    let ((answer, l, st), next) := l.unwind (s.storeAt k) g s.next
    let s := s.withStore k st next
    match answer with
    | .error e => .error (.failed e)
    | .ok true => unwindAll fuel l (body s)
    | .ok false => .ok s

/-- Runs the body inside conditionals nested so deep, on a store. -/
def nestedIfs (track : List Var) : Nat → Session → Except Error Session
  | 0, s => .ok s
  | depth + 1, s => do
    let (g, s) := guard s
    let c ← Conditional.tracking g track
    let (feasible, c) := c.beginThen (s.storeAt k)
    let s ← if ← feasible then nestedIfs track depth (body s) else .ok s
    s.close k c

/-- What is asked of a guard and a body, for so many rounds: guards leave the stores, and bodies leave
the concreteness of the variables. -/
def Fair (vars : List Nat) : Nat → Session → Prop
  | rounds, s =>
    let (g, s') := guard s
    s.Reaches s' ∧ s'.stores = s.stores ∧
    match rounds with
    | 0 => True
    | rounds + 1 => (!g.concrete || g.isTrue) = true → s'.Reaches (body s') ∧
      (∀ i ∈ vars, (((body s').storeAt k).state i).concrete = ((s'.storeAt k).state i).concrete) ∧
      Fair vars rounds (body s')

end

section
variable {s : Session} {k : Nat}

theorem withStore_self (s : Session) (k : Nat) : s.withStore k (s.storeAt k) s.next = s := by
  have hset : s.stores.set k (s.storeAt k) = s.stores := by
    by_cases hk : k < s.stores.length
    · simp [storeAt, hk]
    · exact List.set_eq_of_length_le (by omega)
  unfold withStore
  rw [hset]

theorem storeAt_withStore (hk : k < s.stores.length) (st : Store) (n : Nat) :
    (s.withStore k st n).storeAt k = st := by
  simp [storeAt, withStore, hk]

theorem storeAt_withStore_of_ne {j : Nat} (hj : j ≠ k) (st : Store) (n : Nat) :
    (s.withStore k st n).storeAt j = s.storeAt j := by
  simp [storeAt, withStore, List.getElem?_set_ne (Ne.symm hj)]

end

/-! ### Rounds that have been run -/

/-- What is known after rounds with guards and stores before them. -/
structure Rounds (s : Session) (D : Ledger) (k : Nat) (vars : List Nat) (noted : List (Tracked × Store)) :
    Prop where
  here : k < s.stores.length
  tied : s.TiedAt D s.next
  lt_size : ∀ i ∈ vars, i < (s.storeAt k).size
  noted_lt : ∀ p ∈ noted, ∀ i ∈ vars, i < p.2.size
  ordered : noted.Pairwise fun p q => p.2.Evolves q.2
  evolves : ∀ p ∈ noted, p.2.Evolves (s.storeAt k)
  noted_tied : ∀ p ∈ noted, p.2.Tied D s.next
  flags : ∀ p ∈ noted, ∀ i ∈ vars, (p.2.state i).concrete = ((s.storeAt k).state i).concrete
  ran : ∀ p ∈ noted, p.1.concrete = true → p.1.isTrue = true

section
variable {D : Ledger} {k : Nat} {vars : List Nat} {noted : List (Tracked × Store)} {s s' : Session}

theorem storeAt_tied (h : s.TiedAt D s.next) (hk : k < s.stores.length) : (s.storeAt k).Tied D s.next := by
  refine h.store (k := k) ?_
  simp [storeAt, hk]

/-- What calls that leave the concreteness of the variables lead to. -/
theorem Rounds.reach (h : s.Rounds D k vars noted) (hr : s.Reaches s')
    (hflags : ∀ i ∈ vars, ((s'.storeAt k).state i).concrete = ((s.storeAt k).state i).concrete) :
    ∃ D', s'.Rounds D' k vars noted := by
  obtain ⟨D', hc, hle, hs'⟩ := hr.ties h.tied
  have hev := hr.evolves (.refl s)
  refine ⟨D', Nat.lt_of_lt_of_le h.here hev.length_le, hs', fun i hi => ?_, h.noted_lt, h.ordered,
    fun p hp => (h.evolves p hp).trans (hev.store k), fun p hp => (h.noted_tied p hp).mono hc hle,
    fun p hp i hi => (h.flags p hp i hi).trans (hflags i hi).symm, h.ran⟩
  exact Nat.lt_of_lt_of_le (h.lt_size i hi) (hev.store k).size_le

/-- One more round is noted. -/
theorem Rounds.note (h : s.Rounds D k vars noted) {g : Tracked} (hg : (!g.concrete || g.isTrue) = true) :
    s.Rounds D k vars (noted ++ [(g, s.storeAt k)]) := by
  have hmem : ∀ {P : Tracked × Store → Prop}, (∀ p ∈ noted, P p) → P (g, s.storeAt k) →
      ∀ p ∈ noted ++ [(g, s.storeAt k)], P p := by
    intro P hold hnew p hp
    rcases List.mem_append.1 hp with hp | hp
    · exact hold p hp
    · exact List.mem_singleton.1 hp ▸ hnew
  refine ⟨h.here, h.tied, h.lt_size, hmem h.noted_lt h.lt_size, ?_, hmem h.evolves (.refl _),
    hmem h.noted_tied (storeAt_tied h.tied h.here), hmem h.flags fun _ _ => rfl, hmem h.ran fun hc => ?_⟩
  · refine List.pairwise_append.2 ⟨h.ordered, List.pairwise_singleton _ _, fun p hp q hq => ?_⟩
    exact List.mem_singleton.1 hq ▸ h.evolves p hp
  · have hc : g.concrete = true := hc
    simpa [hc] using hg

theorem Rounds.knows (h : s.Rounds D k vars noted) {p : Tracked × Store} (hp : p ∈ noted) {i : Nat}
    (hi : i ∈ vars) : Noted s.next ((s.storeAt k).state i) p.1 (p.2.state i) := by
  have hlt := h.noted_lt p hp i hi
  have hbefore := (h.noted_tied p hp).state hlt
  have hnow := (storeAt_tied h.tied h.here).state (h.lt_size i hi)
  exact {
    version_le := (h.evolves p hp).version_le i hlt
    eq_of_version := fun hv => ((h.evolves p hp).state_eq i hlt hv.symm).symm
    data_eq := fun hsame => (hnow.data_eq hbefore hsame).symm
    concrete_eq := h.flags p hp i hi
    old := fun e he => (hbefore e he).1
    ran := h.ran p hp }

/-- A variable that has its first version has always been what it is. -/
theorem Rounds.state_eq {first : Tracked × Store} (h : s.Rounds D k vars (first :: noted)) {i : Nat}
    (hi : i ∈ vars) (hv : (first.2.state i).version = ((s.storeAt k).state i).version) :
    ∀ p ∈ first :: noted, p.2.state i = (s.storeAt k).state i := by
  intro p hp
  have hlt := h.noted_lt p hp i hi
  have hfirst := h.noted_lt first List.mem_cons_self i hi
  have hlast := (h.evolves p hp).version_le i hlt
  have hge : (first.2.state i).version ≤ (p.2.state i).version := by
    rcases List.mem_cons.1 hp with rfl | hp
    · exact Nat.le_refl _
    · exact ((List.pairwise_cons.1 h.ordered).1 p hp).version_le i hfirst
  exact ((h.evolves p hp).state_eq i hlt (by omega)).symm

end

end Session

/-! ### Ending a loop -/

namespace Loop

/-- What a loop leaves that ends: each tracked variable looks like the fold of its states. -/
structure Ends (noted : List (Tracked × Store)) (vars : List Nat) (st : Store) (n : Nat) (st' : Store) :
    Prop where
  size_eq : st'.size = st.size
  folded : ∀ i ∈ vars, ∃ m, n ≤ m ∧
    (st'.state i).view = (foldIterations (st.state i) (statesOf noted i) m).1.view
  frame : ∀ i, i ∉ vars → st'.state i = st.state i

/-- Rounds that have all found the same leave it. -/
theorem foldIterations_const {current : Slot} {states : List (Tracked × Slot)}
    (h : ∀ p ∈ states, p.2 = current) (m : Nat) : (foldIterations current states m).1 = current := by
  induction states with
  | nil => rfl
  | cons p rest ih =>
    obtain ⟨g, before⟩ := p
    have hbefore : before = current := h _ List.mem_cons_self
    have hrest := ih fun q hq => h q (List.mem_cons_of_mem _ hq)
    rw [foldIterations_cons]
    show (foldStep g before (foldIterations current rest m).1 _).1 = current
    rw [hrest, hbefore, foldStep_keeps (by simp [same_self])]

variable {D : Ledger} {k : Nat} {vars : List Nat} {noted : List (Tracked × Store)} {s : Session}

theorem join_ends (h : s.Rounds D k vars noted) (hnd : vars.Nodup) (policy : Policy) (phase : Phase)
    (n : Nat) : ∃ st' n',
      join { policy, vars, iterations := notes vars noted, phase } (s.storeAt k) n = ((.ok (), st'), n') ∧
        Ends noted vars (s.storeAt k) n st' := by
  cases noted with
  | nil => exact ⟨_, _, rfl, rfl, (fun i _ => ⟨n, Nat.le_refl n, rfl⟩), fun _ _ => rfl⟩
  | cons first noted =>
    have hj := joinFrom_joins first noted [] hnd h.lt_size n
    change Joins first noted vars (s.storeAt k) n
      (join { policy, vars, iterations := notes vars (first :: noted), phase } (s.storeAt k) n) at hj
    generalize join _ (s.storeAt k) n = r at hj ⊢
    obtain ⟨⟨answer, st'⟩, n'⟩ := r
    obtain rfl : answer = .ok () := hj.answer_eq
    refine ⟨st', n', rfl, hj.size_eq, fun i hi => ?_, fun i hi => hj.kept i (.inl hi)⟩
    by_cases hv : (first.2.state i).version = ((s.storeAt k).state i).version
    · -- not folded, since nothing has changed: the fold would leave it as it is
      have hsame : ∀ p ∈ statesOf (first :: noted) i, p.2 = (s.storeAt k).state i := by
        intro p hp
        obtain ⟨q, hq, rfl⟩ := List.mem_map.1 hp
        exact h.state_eq hi hv q hq
      have hkept : st'.state i = (s.storeAt k).state i := hj.kept i (.inr hv)
      exact ⟨n, Nat.le_refl n, by rw [hkept, foldIterations_const hsame]⟩
    · obtain ⟨m, hm, hfold⟩ := hj.folded i hi hv
      have hfold : st'.state i = _ := hfold
      exact ⟨m, hm, by rw [hfold]; rfl⟩

theorem unwind_ends (h : s.Rounds D k vars noted) (hnd : vars.Nodup) (bound : Nat) {phase : Phase}
    (hp : phase ≠ .ended) (g : Tracked) (hg : bound = 0 ∨ (!g.concrete || g.isTrue) = false) (n : Nat) :
    ∃ l st' n',
      unwind { policy := .bounded bound, vars, iterations := notes vars noted, phase } (s.storeAt k) g n =
        ((.ok false, l, st'), n') ∧ Ends noted vars (s.storeAt k) n st' := by
  obtain ⟨st', n', hjoin, hends⟩ := join_ends h hnd (.bounded bound) .unwinding n
  refine ⟨{ policy := .bounded bound, vars, iterations := notes vars noted, phase := .ended }, st', n', ?_,
    hends⟩
  rw [unwind_last hp hg, Mint.bind_apply, hjoin]
  rfl

end Loop

/-- Stores of one size in which all variables look the same. -/
theorem Store.map_view_eq {st st' : Store} (hsize : st.size = st'.size)
    (h : ∀ i < st.size, (st.state i).view = (st'.state i).view) :
    st.slots.map Slot.view = st'.slots.map Slot.view := by
  refine List.ext_getElem? fun i => ?_
  rw [List.getElem?_map, List.getElem?_map]
  by_cases hi : i < st.size
  · rw [Store.slots_getElem? hi, Store.slots_getElem? (hsize ▸ hi), Option.map_some, Option.map_some, h i hi]
  · have hi' : ¬i < st'.size := hsize ▸ hi
    rw [List.getElem?_eq_none (Nat.le_of_not_lt hi), List.getElem?_eq_none (Nat.le_of_not_lt hi')]

namespace Session

/-! ### The two ways agree -/

/-- How the results of a loop and of conditionals, entered after some rounds, compare. The loop ends at a
store after later rounds. It folds all rounds, while the conditionals have joined the later ones. -/
structure Compares (k : Nat) (vars : List Nat) (noted later : List (Tracked × Store)) (last : Store)
    (n : Nat) (looped nested : Session) : Prop where
  here : k < nested.stores.length
  next_le : n ≤ nested.next
  lt_size : ∀ i ∈ vars, i < (nested.storeAt k).size
  size_eq : (nested.storeAt k).size = last.size
  frame : ∀ i, i ∉ vars → (nested.storeAt k).state i = last.state i
  joined : ∀ i ∈ vars, ∀ m, n ≤ m → Matches n (last.state i)
    (Loop.foldIterations (last.state i) (Loop.statesOf later i) m).1 ((nested.storeAt k).state i)
  ended : Loop.Ends (noted ++ later) vars last n (looped.storeAt k)
  noted : ∀ p ∈ noted, ∀ i ∈ vars, Noted n (last.state i) p.1 (p.2.state i)
  others : ∀ j, j ≠ k → looped.storeAt j = nested.storeAt j

section
variable {D : Ledger} {k : Nat} {vars : List Nat} {noted : List (Tracked × Store)} {s s' : Session}

/-- A loop that ends compares to conditionals that do not go on. -/
theorem Rounds.compares (h : s.Rounds D k vars noted) (hs : s'.stores = s.stores)
    (hnext : s.next ≤ s'.next) {st : Store} {n : Nat}
    (hends : Loop.Ends noted vars (s.storeAt k) s'.next st) {nested : Session}
    (hstores : nested.stores.length = s.stores.length) (hle : s.next ≤ nested.next)
    (hsize : (nested.storeAt k).size = (s.storeAt k).size)
    (hstate : ∀ i, (nested.storeAt k).state i = (s.storeAt k).state i)
    (hothers : ∀ j, j ≠ k → nested.storeAt j = s.storeAt j) :
    Compares k vars noted [] (s.storeAt k) s.next (s'.withStore k st n) nested where
  here := hstores ▸ h.here
  next_le := hle
  lt_size i hi := hsize ▸ h.lt_size i hi
  size_eq := hsize
  frame i _ := hstate i
  joined i hi m hm := by
    rw [hstate i]
    exact .unchanged rfl rfl rfl rfl (Nat.le_refl _)
  ended := by
    rw [storeAt_withStore (hs ▸ h.here), List.append_nil]
    refine ⟨hends.size_eq, fun i hi => ?_, hends.frame⟩
    obtain ⟨m, hm, hfold⟩ := hends.folded i hi
    exact ⟨m, Nat.le_trans hnext hm, hfold⟩
  noted p hp i hi := h.knows hp hi
  others j hj := by
    rw [storeAt_withStore_of_ne hj, hothers j hj, storeAt, storeAt, hs]

/-- A round that is closed. -/
theorem Compares.close {g : Tracked} {before last : Store} {later : List (Tracked × Store)} {n n' : Nat}
    {looped nested : Session} (h : Compares k vars (noted ++ [(g, before)]) later last n looped nested)
    {st : Store} (hc : Conditional.Closes g (g.toExpr nested.next).1 vars before.state (nested.storeAt k)
      nested.next (st, n')) :
    Compares k vars noted ((g, before) :: later) last n looped (nested.withStore k st n') where
  here := by simpa [withStore] using h.here
  next_le := Nat.le_trans h.next_le hc.next_le
  lt_size i hi := by
    rw [storeAt_withStore h.here, hc.size_eq]
    exact h.lt_size i hi
  size_eq := by
    rw [storeAt_withStore h.here]
    exact hc.size_eq.trans h.size_eq
  frame i hi := by
    rw [storeAt_withStore h.here]
    exact (hc.frame i hi).trans (h.frame i hi)
  joined i hi m hm := by
    obtain ⟨m', hm', hclosed⟩ := hc.closed i hi
    have hadv := (Loop.foldIterations_renews (last.state i) (Loop.statesOf later i) m).1
    have hclosed : st.state i = _ := hclosed
    rw [storeAt_withStore h.here, hclosed]
    refine (h.joined i hi m hm).step (h.noted (g, before) (by simp) i hi) (fun j => ?_)
      (Nat.le_trans hm hadv) (Nat.le_trans h.next_le hm')
    exact Dual.unstamped_toExpr rfl rfl j nested.next
  ended := by
    have hends := h.ended
    rwa [List.append_assoc] at hends
  noted p hp := h.noted p (List.mem_append_left _ hp)
  others j hj := by
    rw [storeAt_withStore_of_ne hj]
    exact h.others j hj

end

section
variable {D : Ledger} {guard : Session → Tracked × Session} {body : Session → Session} {k : Nat}
  {noted : List (Tracked × Store)} {s : Session} (track : List Var)

theorem nestedIfs_succ (hlt : ∀ i ∈ trackedVars track, i < ((guard s).2.storeAt k).size) (depth : Nat) :
    nestedIfs guard body k track (depth + 1) s =
      (if !(guard s).1.concrete || (guard s).1.isTrue then
        nestedIfs guard body k track depth (body (guard s).2) else .ok (guard s).2) >>=
      (close · k
        { guard := (guard s).1, vars := trackedVars track,
          entry := (trackedVars track).map ((guard s).2.storeAt k).state, phase := .inThen }) := by
  have hbegin : Conditional.beginThen { guard := (guard s).1, vars := trackedVars track }
      ((guard s).2.storeAt k) = (.ok (!(guard s).1.concrete || (guard s).1.isTrue), _) :=
    Conditional.beginThen_of_known rfl hlt
  rw [nestedIfs]
  dsimp only
  rw [Conditional.tracking_eq]
  show (Conditional.beginThen _ _).1 >>= _ = _
  rw [hbegin]
  cases !(guard s).1.concrete || (guard s).1.isTrue <;> rfl

/-- The induction is on the rounds that the bound still allows. -/
theorem rounds_compare {rounds : Nat} (h : s.Rounds D k (trackedVars track) noted)
    (hfair : Fair guard body k (trackedVars track) rounds s) {phase : Loop.Phase} (hp : phase ≠ .ended) :
    ∃ looped nested,
      unwindAll guard body k (rounds + 1)
        { policy := .bounded rounds, vars := trackedVars track,
          iterations := Loop.notes (trackedVars track) noted, phase } s = .ok looped ∧
      nestedIfs guard body k track rounds s = .ok nested ∧
      ∃ later last n, Compares k (trackedVars track) noted later last n looped nested := by
  have hnd := nodup_trackedVars track
  induction rounds generalizing s noted D phase with
  | zero =>
    obtain ⟨hreach, hstores, -⟩ := hfair
    obtain ⟨-, -, hle, -⟩ := hreach.ties h.tied
    have hstore : (guard s).2.storeAt k = s.storeAt k := by rw [storeAt, hstores, storeAt]
    obtain ⟨l, st, n, hunwind, hends⟩ :=
      Loop.unwind_ends h hnd 0 hp (guard s).1 (.inl rfl) (guard s).2.next
    refine ⟨(guard s).2.withStore k st n, s, ?_, rfl, [], s.storeAt k, s.next,
      h.compares hstores hle hends rfl (Nat.le_refl _) rfl (fun _ => rfl) fun _ _ => rfl⟩
    unfold unwindAll
    simp only [hstore, hunwind]
  | succ rounds ih =>
    obtain ⟨hreach, hstores, hgo⟩ := hfair
    obtain ⟨-, -, hle, -⟩ := hreach.ties h.tied
    have hstore : (guard s).2.storeAt k = s.storeAt k := by rw [storeAt, hstores, storeAt]
    obtain ⟨D₁, h₁⟩ := h.reach hreach fun i _ => by rw [hstore]
    rw [nestedIfs_succ track h₁.lt_size]
    by_cases hfeas : (!(guard s).1.concrete || (guard s).1.isTrue) = true
    · -- the round is run, and closed after the ones inside it
      obtain ⟨hbody, hflags, hfair⟩ := hgo hfeas
      obtain ⟨D₂, h₂⟩ := (h₁.note hfeas).reach hbody hflags
      obtain ⟨looped, nested, hlooped, hnested, later, last, n, hcmp⟩ :=
        ih h₂ hfair (show Loop.Phase.unwinding ≠ .ended by decide)
      obtain ⟨c, st, n', hfinish, hcloses⟩ := Conditional.finish_closes (guard s).1 hnd
        ((guard s).2.storeAt k) hcmp.lt_size nested.next
      refine ⟨looped, nested.withStore k st n', ?_, ?_, _, last, n, hcmp.close hcloses⟩
      · unfold unwindAll
        simp only [Loop.unwind_more hp h₁.lt_size hfeas]
        show unwindAll guard body k (rounds + 1) _ (body ((guard s).2.withStore k _ _)) = _
        rw [withStore_self]
        exact hlooped
      · rw [if_pos hfeas, hnested]
        exact close_eq_ok hfinish
    · -- neither goes on; closing the conditional finds every variable as it was
      have hfeas : (!(guard s).1.concrete || (guard s).1.isTrue) = false := by simpa using hfeas
      obtain ⟨l, st, n, hunwind, hends⟩ :=
        Loop.unwind_ends h hnd (rounds + 1) hp (guard s).1 (.inr hfeas) (guard s).2.next
      obtain ⟨c, st', n', hfinish, hcloses⟩ := Conditional.finish_closes (guard s).1 hnd
        ((guard s).2.storeAt k) h₁.lt_size (guard s).2.next
      have hstate : ∀ i, st'.state i = (s.storeAt k).state i := by
        intro i
        by_cases hi : i ∈ trackedVars track
        · obtain ⟨m, -, hclosed⟩ := hcloses.closed i hi
          rw [← hstore]
          exact hclosed.trans (by rw [Conditional.closeStep, if_pos rfl]; rfl)
        · rw [← hstore]
          exact hcloses.frame i hi
      have hat : ((guard s).2.withStore k st' n').storeAt k = st' := storeAt_withStore h₁.here st' n'
      refine ⟨(guard s).2.withStore k st n, (guard s).2.withStore k st' n', ?_, ?_, [], s.storeAt k, s.next,
        h.compares hstores hle hends ?_ (Nat.le_trans hle hcloses.next_le) ?_ ?_ fun j hj => ?_⟩
      · unfold unwindAll
        simp only [hstore, hunwind]
      · rw [if_neg (by simp [hfeas])]
        exact close_eq_ok hfinish
      · simp [withStore, hstores]
      · rw [hat, ← hstore]
        exact hcloses.size_eq
      · rw [hat]
        exact hstate
      · rw [storeAt_withStore_of_ne hj, storeAt, hstores, storeAt]

end

theorem Compares.view_eq {k : Nat} {vars : List Nat} {later : List (Tracked × Store)} {last : Store}
    {n : Nat} {looped nested : Session} (h : Compares k vars [] later last n looped nested) (j : Nat) :
    (looped.storeAt j).slots.map Slot.view = (nested.storeAt j).slots.map Slot.view := by
  by_cases hj : j = k
  · subst hj
    refine Store.map_view_eq (h.ended.size_eq.trans h.size_eq.symm) fun i _ => ?_
    by_cases hi : i ∈ vars
    · obtain ⟨m, hm, hfold⟩ := h.ended.folded i hi
      exact hfold.trans (h.joined i hi m hm).view_eq
    · rw [h.ended.frame i hi, h.frame i hi]
  · rw [h.others j hj]

/-- **A loop leaves what nested conditionals leave.** After any calls that take no companion from outside
and read variables as what they are, and with a guard and a body that do so, both leave every variable
with the same data, concreteness and structure. -/
theorem loop_leaves_nestedIfs {config : Config} {s : Session} (hs : (ofConfig config).Reaches s)
    (guard : Session → Tracked × Session) (body : Session → Session) {k : Nat}
    (hk : k < s.stores.length) {track : List Var} (htrack : ∀ x ∈ track, x.index < (s.storeAt k).size)
    {bound : Nat} (hfair : Fair guard body k (trackedVars track) bound s) :
    ∃ l looped nested, Loop.tracking bound track = .ok l ∧
      unwindAll guard body k (bound + 1) l s = .ok looped ∧
      nestedIfs guard body k track bound s = .ok nested ∧
      ∀ j, (looped.storeAt j).slots.map Slot.view = (nested.storeAt j).slots.map Slot.view := by
  obtain ⟨D, -, -, hties⟩ := hs.ties (ofConfig_tied (fun _ => .bool false) _ config)
  have hrounds : s.Rounds D k (trackedVars track) [] := {
    here := hk
    tied := hties
    lt_size := by
      intro i hi
      obtain ⟨x, hx, rfl⟩ := List.mem_map.1 (mem_trackedVars.1 hi)
      exact htrack x hx
    noted_lt := fun _ hp => nomatch hp
    ordered := .nil
    evolves := fun _ hp => nomatch hp
    noted_tied := fun _ hp => nomatch hp
    flags := fun _ hp => nomatch hp
    ran := fun _ hp => nomatch hp }
  obtain ⟨looped, nested, hlooped, hnested, _, _, _, hcmp⟩ :=
    rounds_compare track hrounds hfair (show Loop.Phase.entry ≠ .ended by decide)
  exact ⟨_, looped, nested, Loop.tracking_eq bound track, hlooped, hnested, hcmp.view_eq⟩

/-! ### Guards and bodies that are written out -/

/-- The guard of a form. -/
def guardBy (v : ValueForm) (s : Session) : Tracked × Session :=
  match (evalValue [] v).run.run s with
  | (.ok g, s') => (g, s')
  | (.error _, s') => (default, s')

/-- Whether a guard and a body that are written out are fair, for so many rounds. -/
def fairRounds (v : ValueForm) (steps : List Step) (k : Nat) (vars : List Nat) : Nat → Session → Bool
  | rounds, s =>
    let (g, s') := guardBy v s
    (Step.eval v).plain && s.readsFit (.eval v) &&
    match rounds with
    | 0 => true
    | rounds + 1 => (g.concrete && !g.isTrue) ||
      along (fun s step => step.plain && s.readsFit step) s' steps &&
      vars.all (fun i => (((s'.afterAll steps).storeAt k).state i).concrete ==
        ((s'.storeAt k).state i).concrete) &&
      fairRounds v steps k vars rounds (s'.afterAll steps)

theorem guardBy_after (v : ValueForm) (s : Session) : (guardBy v s).2 = s.after (.eval v) := by
  show _ = ((evalValue [] v >>= fun w => pure (.value w) : Run Answer).run.run s).2
  rw [Run.run_bind]
  unfold guardBy
  rcases (evalValue [] v).run.run s with ⟨_ | _, _⟩ <;> rfl

theorem fair_of_fairRounds {v : ValueForm} {steps : List Step} {k : Nat} {vars : List Nat} {rounds : Nat}
    {s : Session} (h : fairRounds v steps k vars rounds s = true) :
    Fair (guardBy v) (·.afterAll steps) k vars rounds s := by
  have hstores : ∀ s : Session, (guardBy v s).2.stores = s.stores := by
    intro s
    rw [guardBy_after]
    exact (runStep_sheds (.refl s) [] rfl).1.stores
  have hreach : ∀ s : Session, (Step.eval v).plain = true → s.readsFit (.eval v) = true →
      s.Reaches (guardBy v s).2 := by
    intro s hplain hreads
    rw [guardBy_after]
    exact .call [] (.eval v) hplain hreads (.refl _)
  induction rounds generalizing s with
  | zero =>
    obtain ⟨⟨hplain, hreads⟩, -⟩ : ((Step.eval v).plain = true ∧ s.readsFit (.eval v) = true) ∧ True := by
      simpa [fairRounds] using h
    exact ⟨hreach s hplain hreads, hstores s, trivial⟩
  | succ rounds ih =>
    unfold fairRounds at h
    simp only [Bool.and_eq_true, Bool.or_eq_true, List.all_eq_true, beq_iff_eq] at h
    obtain ⟨⟨hplain, hreads⟩, hround⟩ := h
    refine ⟨hreach s hplain hreads, hstores s, fun hfeas => ?_⟩
    rcases hround with hstop | ⟨⟨hsteps, hflags⟩, hrest⟩
    · have hfeas : (!(guardBy v s).1.concrete || (guardBy v s).1.isTrue) = true := hfeas
      obtain ⟨hconcrete, hfalse⟩ : (guardBy v s).1.concrete = true ∧ (guardBy v s).1.isTrue = false := by
        simpa using hstop
      simp [hconcrete, hfalse] at hfeas
    · exact ⟨reaches_afterAll hsteps, hflags, ih hrest⟩

/-- A counter and a flag, of which the flag is set once the counter has passed a free bound. -/
def counterSetup : List Step :=
  [.declare "i" (.new (.int 0)) 0, .declare "f" (.new (.bool false)) 0, .declare "k" (.any "K" .int) 0]

def counterGuard : ValueForm := .lt (.get "i" 0) (.get "k" 0)

def counterBody : List Step :=
  [.set "i" (.add (.get "i" 0) (.new (.int 1))) 0, .set "f" (.get "f" 0) 0,
    .openIf "c" (.equals (.get "i" 0) (.new (.int 2))), .track "c" "f", .beginThen "c" 0,
    .set "f" (.lt (.get "k" 0) (.get "i" 0)) 0, .finish "c" 0]

def counterVars : List Var := [⟨0, .int⟩, ⟨1, .bool⟩]

theorem counter_leaves_nestedIfs :
    let s := (ofConfig {}).afterAll counterSetup
    fairRounds counterGuard counterBody 0 (trackedVars counterVars) 3 s = true ∧
    ∃ l looped nested, Loop.tracking 3 counterVars = .ok l ∧
      unwindAll (guardBy counterGuard) (·.afterAll counterBody) 0 4 l s = .ok looped ∧
      nestedIfs (guardBy counterGuard) (·.afterAll counterBody) 0 counterVars 3 s = .ok nested ∧
      ∀ j, (looped.storeAt j).slots.map Slot.view = (nested.storeAt j).slots.map Slot.view := by
  have hfair : fairRounds counterGuard counterBody 0 (trackedVars counterVars) 3
      ((ofConfig {}).afterAll counterSetup) = true := by decide +kernel
  exact ⟨hfair, loop_leaves_nestedIfs (reaches_afterAll (by decide +kernel)) _ _ (by decide +kernel)
    (by decide +kernel) (fair_of_fairRounds hfair)⟩

/-- A variable is set to itself by way of reads as what it is not: it keeps its companion and loses its
data. -/
def foreignBody : List Step := [.set "z" (.get "a" 1) 1, .set "y" (.get "b" 1) 1]

def foreignSetup : List Step :=
  [.declare "a" (.new (.char 0)) 0, .declare "b" (.new (.int 0)) 0, .newStore,
    .bind "n" (.new (.int 256)), .symbolize "n" "N", .declare "y" (.copy "n") 1,
    .declare "z" (.new (.char 0)) 1]

/-- A conditional is entered on one store and closed on another. -/
def strayBody : List Step :=
  [.openIf "c" (.new (.bool false)), .track "c" "p", .beginThen "c" 0, .finish "c" 1]

def straySetup : List Step :=
  [.declare "p" (.any "P" .int) 0, .set "p" (.new (.int 0)) 0, .newStore, .declare "x" (.new (.int 0)) 1]

/-- Variables of the second store after a loop, and after a conditional, with a free guard. -/
def bothEnds (setup body : List Step) (track : List Var) :
    Option (List (Scalar × Bool) × List (Scalar × Bool)) := do
  let s := (ofConfig {}).afterAll setup
  let l ← (Loop.tracking 1 track).toOption
  let looped ← (unwindAll (guardBy (.any "G" .bool)) (·.afterAll body) 1 2 l s).toOption
  let nested ← (nestedIfs (guardBy (.any "G" .bool)) (·.afterAll body) 1 track 1 s).toOption
  let ends := fun s : Session => (s.storeAt 1).slots.map fun sl => (sl.data, sl.concrete)
  return (ends looped, ends nested)

/-- Without the conditions the two ways part: after reads as what is not there in data, and after a scope
that is closed on another store in concreteness. -/
theorem stray_rounds_differ :
    bothEnds foreignSetup foreignBody [⟨0, .int⟩] =
      some ([(.int 0, true), (.char 0, true)], [(.int 256, true), (.char 0, true)]) ∧
    bothEnds straySetup strayBody [⟨0, .int⟩] = some ([(.int 0, false)], [(.int 0, true)]) := by
  decide +kernel

end Session

end Symex
