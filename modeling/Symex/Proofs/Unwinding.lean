import Symex.Proofs.Joining
import Symex.Proofs.Stamps

/-!
What a loop leaves in a store. Each round notes its guard and the store before it. The rounds that are
noted choose, from the first to the last, between going on and the store before (`resolve`), and the
fold of a variable from the last round to the first denotes just that choice.
-/

namespace Symex

/-! ### Choosing among rounds -/

/-- What is left of a final value by rounds with values before them: the value before the first round
whose guard does not hold. -/
def resolve {α : Type} (holds : Tracked → Bool) : List (Tracked × α) → α → α
  | [], v => v
  | (g, before) :: rest, v => if holds g then resolve holds rest v else before

section
variable {α β : Type} {holds : Tracked → Bool}

theorem map_resolve (f : α → β) (l : List (Tracked × α)) (v : α) :
    f (resolve holds l v) = resolve holds (l.map fun p => (p.1, f p.2)) (f v) := by
  induction l with
  | nil => rfl
  | cons p l ih =>
    simp only [resolve, List.map_cons]
    split
    · exact ih
    · rfl

theorem resolve_concat (l : List (Tracked × α)) (g : Tracked) (before v : α) :
    resolve holds (l ++ [(g, before)]) v = resolve holds l (if holds g then v else before) := by
  induction l with
  | nil => rfl
  | cons p l ih =>
    simp only [resolve, List.cons_append, ih]

/-- Rounds that all have the final value before them leave it. -/
theorem resolve_of_forall_eq {l : List (Tracked × α)} {v : α} (h : ∀ p ∈ l, p.2 = v) :
    resolve holds l v = v := by
  induction l with
  | nil => rfl
  | cons p l ih =>
    simp only [resolve]
    split
    · exact ih fun q hq => h q (List.mem_cons_of_mem _ hq)
    · exact h p (by simp)

end

namespace Loop

/-! ### Folding one variable -/

/-- A state that rounds with states before them leave of a current state. -/
structure Folds (states : List (Tracked × Slot)) (current s : Slot) : Prop where
  ty_eq : s.data.ty = current.data.ty
  typed : s.toDual.Typed
  value_eq : (∀ p ∈ states, p.1.concrete = false) → ∀ env, s.toDual.value env =
    resolve (Tracked.holdsIn env) (states.map fun p => (p.1, p.2.toDual.value env))
      (current.toDual.value env)

theorem foldIterations_makes {current : Slot} (hc : current.toDual.Typed)
    {states : List (Tracked × Slot)}
    (hs : ∀ p ∈ states, p.2.toDual.Typed ∧ p.2.data.ty = current.data.ty) :
    (foldIterations current states).Makes (Folds states current) := by
  induction states with
  | nil => exact .pure ⟨rfl, hc, fun _ _ => rfl⟩
  | cons p states ih =>
    obtain ⟨g, before⟩ := p
    obtain ⟨hb, hbt⟩ := hs (g, before) (by simp)
    refine .bind (ih fun p hp => hs p (List.mem_cons_of_mem _ hp)) fun after hafter => ?_
    have hty : before.data.ty = after.data.ty := hbt.trans hafter.ty_eq.symm
    -- choosing between going on and the state before is one more step of `resolve`
    have step : ∀ s : Slot, Slot.Chooses g after before s → Folds ((g, before) :: states) current s := by
      intro s hs'
      refine ⟨hs'.ty_eq.trans hafter.ty_eq, hs'.typed, fun hg env => ?_⟩
      rw [hs'.value_eq (hg (g, before) (by simp)) env,
        hafter.value_eq (fun p hp => hg p (List.mem_cons_of_mem _ hp)) env]
      rfl
    split
    · next h => exact .pure (step after (.of_arm hafter.typed hb hty (.inl rfl) h))
    · refine .bind g.toDual.toExpr_makes fun c hcv => .bind after.toDual.toExpr_makes fun y hyv =>
        .bind before.toDual.toExpr_makes fun z hzv n => ?_
      refine step _ (.of_ite hafter.typed hb hty ?_ rfl hcv hyv hzv)
      by_cases hg : g.isTrue
      · exact .inl (by simp [hg]; rfl)
      · exact .inr (by simp [hg]; rfl)

/-! ### Joining all variables -/

/-- What a loop has noted of rounds with the stores before them. -/
def notes (vars : List Nat) (noted : List (Tracked × Store)) : List Iteration :=
  noted.map fun p => ⟨p.1, vars.map p.2.state⟩

/-- The states of a variable before the rounds. -/
def statesOf (noted : List (Tracked × Store)) (i : Nat) : List (Tracked × Slot) :=
  noted.map fun p => (p.1, p.2.state i)

theorem column_notes (done rest : List Nat) (i : Nat) (noted : List (Tracked × Store)) :
    column (notes (done ++ i :: rest) noted) done.length = statesOf noted i := by
  induction noted with
  | nil => rfl
  | cons p noted ih =>
    have hentry : ((done ++ i :: rest).map p.2.state)[done.length]? = some (p.2.state i) := by simp
    show List.filterMap _ (_ :: notes (done ++ i :: rest) noted) = _
    rw [List.filterMap_cons, hentry]
    exact congrArg _ ih

/-- What joining leaves: each variable that has changed since the first round is folded on its own, the
others keep their states. -/
structure Joins (first : Tracked × Store) (noted : List (Tracked × Store)) (vars : List Nat) (st : Store)
    (n : Nat) (r : (Except Error Unit × Store) × Nat) : Prop where
  next_le : n ≤ r.2
  answer_eq : r.1.1 = .ok ()
  size_eq : r.1.2.size = st.size
  folded : ∀ i ∈ vars, (first.2.state i).version ≠ (st.state i).version → ∃ m, n ≤ m ∧
    r.1.2.state i = { (foldIterations (st.state i) (statesOf (first :: noted) i) m).1 with
      version := (st.state i).version + 1 }
  kept : ∀ i, i ∉ vars ∨ (first.2.state i).version = (st.state i).version →
    r.1.2.state i = st.state i

theorem joinFrom_joins (first : Tracked × Store) (noted : List (Tracked × Store)) {st : Store}
    (done : List Nat) {rest : List Nat} (hnd : rest.Nodup) (hlt : ∀ i ∈ rest, i < st.size) (n : Nat) :
    Joins first noted rest st n
      (joinFrom (notes (done ++ rest) (first :: noted)) st done.length rest n) := by
  induction rest generalizing st done n with
  | nil => exact ⟨Nat.le_refl n, rfl, rfl, (fun _ hi => nomatch hi), fun _ _ => rfl⟩
  | cons j rest ih =>
    obtain ⟨hj, hnd⟩ := List.nodup_cons.1 hnd
    have hjlt : j < st.size := hlt j List.mem_cons_self
    have hrest : ∀ i ∈ rest, i < st.size := fun i hi => hlt i (List.mem_cons_of_mem _ hi)
    have hdone : notes (done ++ j :: rest) (first :: noted) =
        notes ((done ++ [j]) ++ rest) (first :: noted) := by simp
    have hlen : done.length + 1 = (done ++ [j]).length := by simp
    unfold joinFrom
    rw [Store.slot_eq hjlt]
    dsimp only
    rw [column_notes]
    by_cases hv : (first.2.state j).version = (st.state j).version
    · rw [if_pos (by simpa [statesOf] using hv), hdone, hlen]
      have h := ih (done ++ [j]) hnd hrest n
      refine ⟨h.next_le, h.answer_eq, h.size_eq, fun i hi hne => ?_, fun i hi => ?_⟩
      · rcases List.mem_cons.1 hi with rfl | hi
        · exact absurd hv hne
        · exact h.folded i hi hne
      · exact h.kept i (hi.imp_left fun hn hm => hn (List.mem_cons_of_mem _ hm))
    · rw [if_neg (by simpa [statesOf] using hv), hdone, hlen]
      have hadv := (foldIterations_renews (st.state j) (statesOf (first :: noted) j) n).1
      generalize hx : foldIterations (st.state j) (statesOf (first :: noted) j) = x at hadv
      show Joins first noted (j :: rest) st n (joinFrom _
        (st.put j { (x n).1 with version := (st.state j).version + 1 }) _ rest (x n).2)
      generalize hs : ({ (x n).1 with version := (st.state j).version + 1 } : Slot) = s
      have hother : ∀ i, i ≠ j → (st.put j s).state i = st.state i := fun i hi =>
        Store.state_put_of_ne (Ne.symm hi) s
      have hne : ∀ i ∈ rest, i ≠ j := by
        rintro i hi rfl
        exact hj hi
      have hrest' : ∀ i ∈ rest, i < (st.put j s).size := by
        intro i hi
        rw [Store.size_put]
        exact hrest i hi
      have h := ih (done ++ [j]) hnd hrest' (x n).2
      refine ⟨Nat.le_trans hadv h.next_le, h.answer_eq, h.size_eq.trans (Store.size_put _ _ _),
        fun i hi hv' => ?_, fun i hi => ?_⟩
      · rcases List.mem_cons.1 hi with rfl | hi
        · refine ⟨n, Nat.le_refl n, ?_⟩
          rw [h.kept i (.inl hj), Store.state_put_self hjlt, hx, hs]
        · have hfolded := h.folded i hi
          rw [hother i (hne i hi)] at hfolded
          obtain ⟨m, hm, hstate⟩ := hfolded hv'
          exact ⟨m, Nat.le_trans hadv hm, hstate⟩
      · have hij : i ≠ j := by
          rintro rfl
          exact hi.elim (fun hn => hn List.mem_cons_self) hv
        have hkept := h.kept i
        rw [hother i hij] at hkept
        exact hkept (hi.imp_left fun hn hm => hn (List.mem_cons_of_mem _ hm))

theorem joinFrom_makes {first : Tracked × Store} {noted : List (Tracked × Store)} {st : Store}
    (done : List Nat) {rest : List Nat} (hnd : rest.Nodup) (hlt : ∀ i ∈ rest, i < st.size)
    (hc : ∀ i ∈ rest, (st.state i).toDual.Typed)
    (hs : ∀ i ∈ rest, ∀ p ∈ first :: noted,
      (p.2.state i).toDual.Typed ∧ (p.2.state i).data.ty = (st.state i).data.ty) :
    (joinFrom (notes (done ++ rest) (first :: noted)) st done.length rest).Makes fun r =>
      r.1 = .ok () ∧ r.2.size = st.size ∧ ∀ i,
        (i ∈ rest ∧ (first.2.state i).version ≠ (st.state i).version →
          (r.2.state i).version = (st.state i).version + 1 ∧
            Folds (statesOf (first :: noted) i) (st.state i) (r.2.state i)) ∧
        (i ∉ rest ∨ (first.2.state i).version = (st.state i).version →
          r.2.state i = st.state i) := by
  intro n
  have h := joinFrom_joins first noted done hnd hlt n
  refine ⟨h.answer_eq, h.size_eq, fun i => ⟨?_, h.kept i⟩⟩
  rintro ⟨hi, hv⟩
  have hstates : ∀ p ∈ statesOf (first :: noted) i,
      p.2.toDual.Typed ∧ p.2.data.ty = (st.state i).data.ty := by
    intro p hp
    obtain ⟨q, hq, rfl⟩ := List.mem_map.1 hp
    exact hs i hi q hq
  obtain ⟨m, -, hm⟩ := h.folded i hi hv
  have hfolds := foldIterations_makes (hc i hi) hstates m
  rw [hm]
  exact ⟨rfl, hfolds.ty_eq, hfolds.typed, hfolds.value_eq⟩

/-! ### Rounds -/

/-- A store within a loop that was entered at another one, after rounds with stores before them. -/
structure Unwound (Γ : List Ty) (assigned : List Nat) (first : Store) (noted : List (Tracked × Store))
    (st : Store) : Prop where
  fits : st.Fits Γ
  later : first.Later st
  frame : ∀ i, i ∉ assigned → st.state i = first.state i
  noted_fits : ∀ p ∈ noted, p.2.Fits Γ
  first_later : ∀ p ∈ noted, first.Later p.2
  noted_later : ∀ p ∈ noted, p.2.Later st
  head_eq : ∀ p ∈ noted.head?, p.2 = first
  eq_first : noted = [] → st = first

section
variable {Γ : List Ty} {assigned vars : List Nat} {first st : Store} {noted : List (Tracked × Store)}

theorem unwound_self (h : st.Fits Γ) : Unwound Γ assigned st [] st where
  fits := h
  later := .refl st
  frame := fun _ _ => rfl
  noted_fits := by simp
  first_later := by simp
  noted_later := by simp
  head_eq := by simp
  eq_first := fun _ => rfl

/-- One more round, whose body may change the assigned variables. -/
theorem Unwound.next (h : Unwound Γ assigned first noted st) (g : Tracked) {st' : Store}
    (hfits : st'.Fits Γ) (hlater : st.Later st')
    (hframe : ∀ i, i ∉ assigned → st'.state i = st.state i) :
    Unwound Γ assigned first (noted ++ [(g, st)]) st' where
  fits := hfits
  later := h.later.trans hlater
  frame := fun i hi => (hframe i hi).trans (h.frame i hi)
  noted_fits := by
    intro p hp
    rcases List.mem_append.1 hp with hp | hp
    · exact h.noted_fits p hp
    · rw [List.mem_singleton.1 hp]
      exact h.fits
  first_later := by
    intro p hp
    rcases List.mem_append.1 hp with hp | hp
    · exact h.first_later p hp
    · rw [List.mem_singleton.1 hp]
      exact h.later
  noted_later := by
    intro p hp
    rcases List.mem_append.1 hp with hp | hp
    · exact (h.noted_later p hp).trans hlater
    · rw [List.mem_singleton.1 hp]
      exact hlater
  head_eq := by
    cases noted with
    | nil => simpa using h.eq_first rfl
    | cons q noted => exact h.head_eq
  eq_first := by simp

/-- A variable that has its first version had the same state before every round. -/
theorem Unwound.state_eq (h : Unwound Γ assigned first noted st) {i : Nat}
    (hv : (first.state i).version = (st.state i).version) {p : Tracked × Store} (hp : p ∈ noted) :
    p.2.state i = st.state i := by
  have h1 := (h.first_later p hp).version_le i
  have h2 := (h.noted_later p hp).version_le i
  exact ((h.noted_later p hp).state_eq i (by omega)).symm

theorem Unwound.ty_eq (h : Unwound Γ assigned first noted st) {i : Nat} (hi : i < st.size)
    {p : Tracked × Store} (hp : p ∈ noted) : (p.2.state i).data.ty = (st.state i).data.ty := by
  refine (h.noted_fits p hp).ty_state (h.fits.ty_eq i hi)

/-- What is left of the rounds when a loop ends. -/
structure Resolved (Γ : List Ty) (assigned : List Nat) (first : Store) (noted : List (Tracked × Store))
    (st st' : Store) : Prop where
  fits : st'.Fits Γ
  later : first.Later st'
  frame : ∀ i, i ∉ assigned → st'.state i = first.state i
  values_eq : (∀ p ∈ noted, p.1.concrete = false) → ∀ env, st'.values env =
    resolve (Tracked.holdsIn env) (noted.map fun p => (p.1, p.2.values env)) (st.values env)

/-- The values of a store in which each variable resolves the rounds. -/
theorem values_eq_resolve {env : Env} {st' : Store} (hs : st'.size = st.size)
    (hn : ∀ p ∈ noted, p.2.size = st.size)
    (h : ∀ i < st.size, (st'.state i).toDual.value env =
      resolve (Tracked.holdsIn env) (noted.map fun p => (p.1, (p.2.state i).toDual.value env))
        ((st.state i).toDual.value env)) :
    st'.values env = resolve (Tracked.holdsIn env) (noted.map fun p => (p.1, p.2.values env))
      (st.values env) := by
  refine Store.values_eq ?_ fun i hi => ?_
  · rw [map_resolve List.length, List.map_map, resolve_of_forall_eq, Store.length_values, hs]
    intro q hq
    obtain ⟨p, hp, rfl⟩ := List.mem_map.1 hq
    show (p.2.values env).length = (st.values env).length
    rw [Store.length_values, Store.length_values, hn p hp]
  · rw [hs] at hi
    rw [h i hi, map_resolve some, map_resolve (fun σ : List Scalar => σ[i]?), Store.getElem?_values env hi,
      List.map_map, List.map_map]
    refine congrArg (fun l => resolve _ l _) (List.map_congr_left fun p hp => ?_)
    show (p.1, (p.2.values env)[i]?) = (p.1, some _)
    rw [Store.getElem?_values env (by rw [hn p hp]; exact hi)]

/-- **Joining resolves the rounds**, if the body assigns tracked variables only. -/
theorem join_makes (h : Unwound Γ assigned first noted st) (hnd : vars.Nodup)
    (hvars : ∀ i ∈ vars, i < st.size) (ha : ∀ i ∈ assigned, i ∈ vars) (policy : Policy) (phase : Phase) :
    (join { policy, vars, iterations := notes vars noted, phase } st).Makes fun r =>
      r.1 = .ok () ∧ Resolved Γ assigned first noted st r.2 := by
  cases noted with
  | nil => exact .pure ⟨rfl, h.fits, h.later, h.frame, fun _ _ => rfl⟩
  | cons p noted =>
    have hfirst : p.2 = first := h.head_eq p rfl
    refine (joinFrom_makes [] hnd hvars (fun i hi => h.fits.typed i (hvars i hi))
      fun i hi q hq => ⟨?_, h.ty_eq (hvars i hi) hq⟩).mono ?_
    · exact (h.noted_fits q hq).typed i (by rw [← (h.noted_later q hq).size_eq]; exact hvars i hi)
    rintro ⟨e, st'⟩ ⟨rfl, hsize, hst'⟩
    rw [hfirst] at hst'
    -- a variable is folded, or it is as on entry
    have cases : ∀ i,
        ((first.state i).version ≠ (st.state i).version ∧
          (st'.state i).version = (st.state i).version + 1 ∧
          Folds (statesOf (p :: noted) i) (st.state i) (st'.state i)) ∨
        ((first.state i).version = (st.state i).version ∧ st'.state i = st.state i) := by
      intro i
      by_cases hv : (first.state i).version = (st.state i).version
      · exact .inr ⟨hv, (hst' i).2 (.inr hv)⟩
      · have hi : i ∈ vars := Decidable.byContradiction fun hi =>
          hv (congrArg _ (h.frame i fun hm => hi (ha i hm)).symm)
        exact .inl ⟨hv, (hst' i).1 ⟨hi, hv⟩⟩
    refine ⟨rfl, h.fits.congr hsize fun i hi => ?_,
      ⟨hsize.trans h.later.size_eq, fun i => ?_, fun i hv => ?_⟩, fun i hi => ?_, fun hg env => ?_⟩
    · rcases cases i with ⟨-, -, hf⟩ | ⟨-, hs⟩
      · exact ⟨hf.ty_eq, hf.typed⟩
      · rw [show st'.state i = st.state i from hs]
        exact ⟨rfl, h.fits.typed i hi⟩
    · have := h.later.version_le i
      rcases cases i with ⟨-, hv, -⟩ | ⟨hv, hs⟩
      · show _ ≤ (st'.state i).version
        omega
      · rw [hv]
        exact Nat.le_of_eq (congrArg _ hs.symm)
    · have := h.later.version_le i
      rcases cases i with ⟨-, hv', -⟩ | ⟨hv', hs⟩
      · have hv : (st'.state i).version = (first.state i).version := hv
        omega
      · exact hs.trans (h.later.state_eq i hv'.symm)
    · have hf := h.frame i hi
      rcases cases i with ⟨hv, -⟩ | ⟨-, hs⟩
      · exact absurd (congrArg _ hf.symm) hv
      · exact hs.trans hf
    · refine values_eq_resolve hsize (fun q hq => (h.noted_later q hq).size_eq.symm) fun i hi => ?_
      rcases cases i with ⟨-, -, hf⟩ | ⟨hv, hs⟩
      · refine (hf.value_eq (fun q hq => ?_) env).trans ?_
        · obtain ⟨q', hq', rfl⟩ := List.mem_map.1 hq
          exact hg q' hq'
        · rw [statesOf, List.map_map]
          rfl
      · rw [resolve_of_forall_eq]
        · exact congrArg (·.toDual.value env) hs
        · intro q hq
          obtain ⟨q', hq', rfl⟩ := List.mem_map.1 hq
          exact congrArg (·.toDual.value env) (h.state_eq hv hq')

/-! ### Calls on a loop -/

theorem unwind_more {k : Nat} {phase : Phase} (hp : phase ≠ .ended) (hvars : ∀ i ∈ vars, i < st.size)
    {g : Tracked} (hg : (!g.concrete || g.isTrue) = true) :
    unwind { policy := .bounded (k + 1), vars, iterations := notes vars noted, phase } st g =
      return (.ok true,
        { policy := .bounded k, vars, iterations := notes vars (noted ++ [(g, st)]), phase := .unwinding },
        st) := by
  unfold unwind
  rw [if_neg hp]
  simp only [hg, if_true, Policy.ask]
  rw [Store.slotsOf_eq hvars]
  simp [notes]

/-- A loop ends when its bound is used up, or at a guard that cannot hold. -/
theorem unwind_last {k : Nat} {phase : Phase} (hp : phase ≠ .ended) {g : Tracked}
    (hg : k = 0 ∨ (!g.concrete || g.isTrue) = false) (iterations : List Iteration) (st : Store) :
    unwind { policy := .bounded k, vars, iterations, phase } st g = do
      match ← join { policy := .bounded k, vars, iterations, phase := .unwinding } st with
      | (.error e, st) =>
        return (.error e, { policy := .bounded k, vars, iterations, phase := .unwinding }, st)
      | (.ok (), st) =>
        return (.ok false, { policy := .bounded k, vars, iterations, phase := .ended }, st) := by
  have hask : (if !g.concrete || g.isTrue then (Policy.bounded k).ask g else (false, .bounded k)) =
      (false, .bounded k) := by
    rcases hg with rfl | hg
    · split
      · rfl
      · rfl
    · rw [hg]
      rfl
  unfold unwind
  rw [if_neg hp]
  dsimp only
  rw [hask]
  rfl

theorem unwind_stop (h : Unwound Γ assigned first noted st) (hnd : vars.Nodup)
    (hvars : ∀ i ∈ vars, i < st.size) (ha : ∀ i ∈ assigned, i ∈ vars) {k : Nat} {phase : Phase}
    (hp : phase ≠ .ended) {g : Tracked} (hg : k = 0 ∨ (!g.concrete || g.isTrue) = false) :
    (unwind { policy := .bounded k, vars, iterations := notes vars noted, phase } st g).Makes fun r =>
      r.1 = .ok false ∧ Resolved Γ assigned first noted st r.2.2 := by
  rw [unwind_last hp hg]
  refine .bind (join_makes h hnd hvars ha _ _) ?_
  rintro ⟨e, st'⟩ ⟨rfl, hst'⟩
  exact .pure ⟨rfl, hst'⟩

/-- **A loop under way leaves what running on would**, up to the rounds noted so far. The induction is on
the rounds that the bound still allows. -/
theorem rounds_resolved {guard : Store → Build Tracked} {body : Store → Build (Store × List Tracked)}
    {test : Env → List Scalar → Bool} {f : Env → List Scalar → List Scalar}
    (hguard : ∀ st : Store, st.Fits Γ → (guard st).Yields fun g =>
      ∀ env, g.holdsIn env = test env (st.values env))
    (hbody : ∀ st : Store, st.Fits Γ → (body st).Yields (st.Effect Γ assigned f))
    (hnd : vars.Nodup) (hvars : ∀ i ∈ vars, i < first.size) (ha : ∀ i ∈ assigned, i ∈ vars)
    (k : Nat) {phase : Phase} (hp : phase ≠ .ended) (h : Unwound Γ assigned first noted st) :
    (rounds guard body (k + 1) { policy := .bounded k, vars, iterations := notes vars noted, phase }
      st).Yields fun r =>
        r.1.Fits Γ ∧ first.Later r.1 ∧ (∀ i, i ∉ assigned → r.1.state i = first.state i) ∧
        ((∀ p ∈ noted, p.1.concrete = false) → (∀ g ∈ r.2, g.concrete = false) → ∀ env,
          r.1.values env = resolve (Tracked.holdsIn env) (noted.map fun p => (p.1, p.2.values env))
            (whileAtMost (test env) (f env) k (st.values env))) := by
  induction k generalizing st noted phase with
  | zero =>
    have hvars' : ∀ i ∈ vars, i < st.size := fun i hi => h.later.size_eq ▸ hvars i hi
    refine .bind (hguard st h.fits) fun g hg => ?_
    refine .bind (.mint (unwind_stop h hnd hvars' ha hp (.inl rfl))) ?_
    rintro ⟨_, l, st'⟩ ⟨rfl, hst'⟩
    refine .bind (.ofExcept rfl rfl) ?_
    rintro _ rfl
    exact .pure ⟨hst'.fits, hst'.later, hst'.frame, fun hn _ => hst'.values_eq hn⟩
  | succ k ih =>
    have hvars' : ∀ i ∈ vars, i < st.size := fun i hi => h.later.size_eq ▸ hvars i hi
    refine .bind (hguard st h.fits) fun g hg => ?_
    by_cases hfeas : (!g.concrete || g.isTrue) = true
    · rw [unwind_more hp hvars' hfeas]
      refine .bind (.mint (.pure rfl)) ?_
      rintro _ rfl
      refine .bind (.ofExcept rfl rfl) ?_
      rintro _ rfl
      refine .bind (hbody st h.fits) ?_
      rintro ⟨st1, inner⟩ he
      refine .bind (ih (by decide) (h.next g he.fits he.later he.frame)) ?_
      rintro ⟨st2, rest⟩ ⟨hfits, hlater, hframe, hvalues⟩
      refine .pure ⟨hfits, hlater, hframe, fun hn hgs env => ?_⟩
      have hgc : g.concrete = false := hgs g (by simp)
      have hstep : f env (st.values env) = st1.values env :=
        (he.values_eq (fun g' hg' => hgs g' (by simp [hg'])) env).symm
      refine (hvalues (fun p hm => ?_) (fun g' hg' => hgs g' (by simp [hg'])) env).trans ?_
      · rcases List.mem_append.1 hm with hm | hm
        · exact hn p hm
        · rw [List.mem_singleton.1 hm]
          exact hgc
      · -- the new round chooses as the guard of the `while` does
        rw [List.map_append, List.map_singleton, resolve_concat, hg env, ← hstep]
        rfl
    · have hfeas : (!g.concrete || g.isTrue) = false := by simpa using hfeas
      refine .bind (.mint (unwind_stop h hnd hvars' ha hp (.inr hfeas))) ?_
      rintro ⟨_, l, st'⟩ ⟨rfl, hst'⟩
      refine .bind (.ofExcept rfl rfl) ?_
      rintro _ rfl
      refine .pure ⟨hst'.fits, hst'.later, hst'.frame, fun _ hgs => ?_⟩
      -- only a concrete guard cannot hold
      have hgc : g.concrete = false := hgs g (by simp)
      rw [hgc] at hfeas
      cases hfeas

/-- **A loop leaves what a bounded `while` does.** -/
theorem rounds_yields {guard : Store → Build Tracked} {body : Store → Build (Store × List Tracked)}
    {test : Env → List Scalar → Bool} {f : Env → List Scalar → List Scalar}
    (hguard : ∀ st : Store, st.Fits Γ → (guard st).Yields fun g =>
      ∀ env, g.holdsIn env = test env (st.values env))
    (hbody : ∀ st : Store, st.Fits Γ → (body st).Yields (st.Effect Γ assigned f))
    (hnd : vars.Nodup) (hvars : ∀ i ∈ vars, i < st.size) (ha : ∀ i ∈ assigned, i ∈ vars) (k : Nat)
    (hst : st.Fits Γ) :
    (rounds guard body (k + 1) { policy := .bounded k, vars } st).Yields
      (st.Effect Γ assigned fun env => whileAtMost (test env) (f env) k) := by
  have h : Unwound Γ assigned st [] st := unwound_self hst
  refine (rounds_resolved hguard hbody hnd hvars ha k (by decide) h).mono ?_
  rintro r ⟨hfits, hlater, hframe, hvalues⟩
  exact ⟨hfits, hlater, hframe, hvalues (by simp)⟩

end

end Loop

end Symex
