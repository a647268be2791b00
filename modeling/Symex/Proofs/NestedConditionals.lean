import Symex.Proofs.SessionSharing
import Symex.Proofs.Unwinding

/-!
A loop leaves what nested conditionals would. Both run the body round after round on one store and differ
only in how they join: the loop folds the states it has noted once it ends, and skips those it knows to be
the same, while the conditionals are closed one by one, from the last to the first, and each skips what
has kept its version. The results have the same data, concreteness and structure, as long as a companion
always comes with the same data.
-/

namespace Symex

/-! ### Structure -/

/-- Data, concreteness and the structure of the companion. -/
def Slot.view (s : Slot) : Scalar × Bool × Option Expr :=
  (s.data, s.concrete, s.companion.map Expr.unstamped)

theorem Dual.unstamped_toExpr {a b : Dual} (hd : a.data = b.data)
    (hc : a.companion.map Expr.unstamped = b.companion.map Expr.unstamped) (n m : Nat) :
    (a.toExpr n).1.unstamped = (b.toExpr m).1.unstamped := by
  unfold toExpr
  cases ha : a.companion with
  | none =>
    cases hb : b.companion with
    | none =>
      rw [hd]
      rfl
    | some f => simp [ha, hb] at hc
  | some e =>
    cases hb : b.companion with
    | none => simp [ha, hb] at hc
    | some f =>
      show e.unstamped = f.unstamped
      simpa [ha, hb] using hc

/-! ### One variable -/

/-- What is known of a guard and the state of a variable before a round, when the variable has come to a
state and stamps have come to a number. -/
structure Noted (n : Nat) (current : Slot) (g : Tracked) (before : Slot) : Prop where
  version_le : before.version ≤ current.version
  eq_of_version : before.version = current.version → before = current
  data_eq : current.same before.toDual = true → before.data = current.data
  concrete_eq : before.concrete = current.concrete
  old : ∀ e, before.companion = some e → e.stamp < n
  ran : g.concrete = true → g.isTrue = true

/-- A state of a variable as a loop folds it, and as conditionals leave it: both are still what it has
come to, or both are joins that are alike. -/
inductive Matches (n : Nat) (current a b : Slot) : Prop
  | unchanged (ha : a.toDual = current.toDual) (hac : a.concrete = current.concrete)
    (hb : b.toDual = current.toDual) (hbc : b.concrete = current.concrete)
    (hv : current.version ≤ b.version)
  | joined (hview : a.view = b.view) (ha : ∃ e, a.companion = some e ∧ n ≤ e.stamp)
    (hb : ∃ e, b.companion = some e ∧ n ≤ e.stamp) (hv : current.version < b.version)

theorem Matches.view_eq {n : Nat} {current a b : Slot} (h : Matches n current a b) : a.view = b.view := by
  cases h with
  | unchanged ha hac hb hbc hv => simp [Slot.view, ha, hac, hb, hbc]
  | joined hview ha hb hv => exact hview

namespace Loop

/-- One round of folding. -/
def foldStep (g : Tracked) (before after : Slot) : Mint Slot :=
  if g.concrete || after.same before.toDual then
    return after
  else do
    let c ← g.toExpr
    let y ← after.toExpr
    let z ← before.toExpr
    let e ← Mint.ite c y z
    let taken := if g.isTrue then after else before
    return { taken with companion := some e, version := after.version }

theorem foldStep_keeps {g : Tracked} {before after : Slot}
    (h : (g.concrete || after.same before.toDual) = true) (m : Nat) :
    (foldStep g before after m).1 = after := by
  unfold foldStep
  rw [if_pos h]
  rfl

theorem foldStep_chooses {g : Tracked} {before after : Slot}
    (h : (g.concrete || after.same before.toDual) = false) (m : Nat) :
    ∃ k c y z, m ≤ k ∧ (∃ i, c = (g.toExpr i).1) ∧ (∃ i, y = (after.toExpr i).1) ∧
      (∃ i, z = (before.toExpr i).1) ∧ (foldStep g before after m).1 =
        { (if g.isTrue then after else before) with
          companion := some (.ite k c y z), version := after.version } := by
  have h1 := g.toExpr_advances m
  have h2 := after.toExpr_advances (g.toExpr m).2
  have h3 := before.toExpr_advances (after.toExpr (g.toExpr m).2).2
  refine ⟨(before.toExpr (after.toExpr (g.toExpr m).2).2).2, _, _, _, by omega, ⟨m, rfl⟩,
    ⟨(g.toExpr m).2, rfl⟩, ⟨(after.toExpr (g.toExpr m).2).2, rfl⟩, ?_⟩
  unfold foldStep
  rw [if_neg (by simp [h])]
  rfl

theorem foldIterations_cons (current : Slot) (g : Tracked) (before : Slot)
    (rest : List (Tracked × Slot)) : foldIterations current ((g, before) :: rest) =
      foldIterations current rest >>= foldStep g before := rfl

end Loop

namespace Conditional

theorem joinArms_keeps {g : Tracked} {yes no : Slot} (h : (g.concrete || yes.same no.toDual) = true)
    (e : Expr) (version m : Nat) :
    (joinArms g e yes no version m).1 = { (if g.isTrue then yes else no) with version } := by
  unfold joinArms
  simp only [h, if_true]
  rfl

theorem joinArms_chooses {g : Tracked} {yes no : Slot}
    (h : (g.concrete || yes.same no.toDual) = false) (e : Expr) (version m : Nat) :
    ∃ k y z, m ≤ k ∧ (∃ i, y = (yes.toExpr i).1) ∧ (∃ i, z = (no.toExpr i).1) ∧
      (joinArms g e yes no version m).1 = { (if g.isTrue then yes else no) with
        companion := some (.ite k e y z), version } := by
  have h1 := yes.toExpr_advances m
  have h2 := no.toExpr_advances (yes.toExpr m).2
  refine ⟨(no.toExpr (yes.toExpr m).2).2, _, _, by omega, ⟨m, rfl⟩, ⟨(yes.toExpr m).2, rfl⟩, ?_⟩
  unfold joinArms
  simp only [h, Bool.false_eq_true, if_false]
  rfl

/-- Closing a conditional that was entered at a state and has no second arm. -/
def closeStep (g : Tracked) (e : Expr) (before after : Slot) : Mint Slot :=
  if after.version = before.version then return after
  else joinArms g e after before (max after.version before.version + 1)

end Conditional

section
variable {n : Nat} {current a b before : Slot} {g : Tracked} {e : Expr}

/-- A new choice is not known to be the same as what was there before. -/
theorem Noted.not_same (hp : Noted n current g before) (ha : ∃ e, a.companion = some e ∧ n ≤ e.stamp) :
    a.same before.toDual = false := by
  obtain ⟨e, he, hn⟩ := ha
  unfold Dual.same
  cases hb : before.companion with
  | none => rw [he]
  | some f =>
    have hf := hp.old f hb
    have hne : e ≠ f := by
      rintro rfl
      omega
    rw [he]
    simpa using hne

/-- What is known to be the same as the state the variable has come to is the same. -/
theorem Noted.toDual_eq (hp : Noted n current g before) (h : current.same before.toDual = true) :
    before.toDual = current.toDual := by
  have hd := hp.data_eq h
  have hc : before.companion = current.companion := by
    unfold Dual.same at h
    split at h
    · next f f' hf hf' =>
      rw [hf, hf']
      simpa using (of_decide_eq_true h).symm
    · next hf hf' => rw [hf, hf']
    · cases h
  show Dual.mk before.data before.companion = Dual.mk current.data current.companion
  rw [hd, hc]

theorem same_congr {x y : Slot} (h : x.toDual = y.toDual) (d : Dual) : x.same d = y.same d := by rw [h]

theorem same_self (s : Slot) : s.same s.toDual = true := by
  unfold Dual.same
  cases s.companion with
  | none => simp
  | some e => simp

/-- Two choices by one guard between matching states and one state before. -/
theorem joined_of_ite {k k' : Nat} (hk : n ≤ k) (hk' : n ≤ k') {c c' y y' z z' : Expr}
    (hc : c.unstamped = c'.unstamped) (hy : y.unstamped = y'.unstamped)
    (hz : z.unstamped = z'.unstamped) (hview : a.view = b.view) {version version' : Nat}
    (hv : current.version < version') :
    Matches n current
      { (if g.isTrue then a else before) with companion := some (.ite k c y z), version }
      { (if g.isTrue then b else before) with companion := some (.ite k' c' y' z'), version := version' } := by
  refine .joined ?_ ⟨_, rfl, hk⟩ ⟨_, rfl, hk'⟩ hv
  simp only [Slot.view, Prod.mk.injEq] at hview ⊢
  refine ⟨?_, ?_, ?_⟩
  · split
    · exact hview.1
    · rfl
  · split
    · exact hview.2.1
    · rfl
  · simp [Expr.unstamped, hc, hy, hz]

/-- **A round is folded as it is closed.** -/
theorem Matches.step (h : Matches n current a b) (hp : Noted n current g before)
    (he : ∀ m, (g.toExpr m).1.unstamped = e.unstamped) {m m' : Nat} (hm : n ≤ m) (hm' : n ≤ m') :
    Matches n current (Loop.foldStep g before a m).1 (Conditional.closeStep g e before b m').1 := by
  have hview := h.view_eq
  have hexpr : ∀ m m', (a.toExpr m).1.unstamped = (b.toExpr m').1.unstamped := by
    simp only [Slot.view, Prod.mk.injEq] at hview
    exact Dual.unstamped_toExpr hview.1 hview.2.2
  by_cases hversion : b.version = before.version
  · -- the state before is the one the variable has come to
    have hclose : (Conditional.closeStep g e before b m').1 = b := by
      unfold Conditional.closeStep
      rw [if_pos hversion]
      rfl
    have hle := hp.version_le
    cases h with
    | joined _ _ _ hv => omega
    | unchanged ha hac hb hbc hv =>
      have hsame : a.same before.toDual = true := by
        rw [same_congr ha, hp.eq_of_version (by omega)]
        exact same_self current
      rw [hclose, Loop.foldStep_keeps (by simp [hsame])]
      exact .unchanged ha hac hb hbc hv
  · have hclose : (Conditional.closeStep g e before b m').1 =
        (joinArms g e b before (max b.version before.version + 1) m').1 := by
      unfold Conditional.closeStep
      rw [if_neg hversion]
    have hsame : a.same before.toDual = b.same before.toDual := by
      cases h with
      | joined _ ha hb _ => rw [hp.not_same ha, hp.not_same hb]
      | unchanged ha _ hb _ _ => rw [same_congr ha, same_congr hb]
    have hge : current.version ≤ b.version := by
      cases h with
      | joined _ _ _ hv => exact Nat.le_of_lt hv
      | unchanged _ _ _ _ hv => exact hv
    rw [hclose]
    cases hskip : g.concrete || b.same before.toDual with
    | false =>
      obtain ⟨k, c, y, z, hk, ⟨i, rfl⟩, ⟨i', rfl⟩, ⟨i'', rfl⟩, hfold⟩ :=
        Loop.foldStep_chooses (by rw [hsame]; exact hskip) m
      obtain ⟨k', y', z', hk', ⟨j, rfl⟩, ⟨j', rfl⟩, hjoin⟩ :=
        Conditional.joinArms_chooses hskip e (max b.version before.version + 1) m'
      rw [hfold, hjoin]
      exact joined_of_ite (by omega) (by omega) (he i) (hexpr _ _) (Dual.unstamped_toExpr rfl rfl _ _)
        hview (by omega)
    | true =>
      rw [Loop.foldStep_keeps (by rw [hsame]; exact hskip), Conditional.joinArms_keeps hskip]
      have hmax : current.version ≤ max b.version before.version + 1 := by omega
      by_cases hg : g.isTrue = true
      · -- the arm that ran is taken, a version ahead
        rw [if_pos hg]
        cases h with
        | unchanged ha hac hb hbc hv => exact .unchanged ha hac hb hbc hmax
        | joined hview ha hb hv => exact .joined hview ha hb (Nat.lt_succ_of_le (by omega))
      · -- the guard is not concrete, so the states are known to be the same
        have hconc : g.concrete = false := by
          cases hc : g.concrete with
          | false => rfl
          | true => exact absurd (hp.ran hc) hg
        have hb : b.same before.toDual = true := by simpa [hconc] using hskip
        rw [if_neg hg]
        cases h with
        | joined _ _ hnew _ =>
          rw [hp.not_same hnew] at hb
          cases hb
        | unchanged ha hac hb' _ _ =>
          rw [same_congr hb'] at hb
          exact .unchanged ha hac (hp.toDual_eq hb) hp.concrete_eq hmax

end

/-! ### Closing a conditional -/

namespace Conditional

variable {g : Tracked} {vars : List Nat}

theorem zip_rows (vars : List Nat) (f cur : Nat → Slot) :
    vars.zip ((vars.map f).zip ((vars.map cur).zip (vars.map f))) =
      vars.map fun i => (i, f i, cur i, f i) := by
  induction vars with
  | nil => rfl
  | cons i vars ih => simp [ih]

/-- What closing leaves: each tracked variable is closed on its own. -/
structure Closes (g : Tracked) (e : Expr) (vars : List Nat) (f : Nat → Slot) (st : Store) (n : Nat)
    (r : Store × Nat) : Prop where
  next_le : n ≤ r.2
  size_eq : r.1.size = st.size
  closed : ∀ i ∈ vars, ∃ m, n ≤ m ∧ r.1.state i = (closeStep g e (f i) (st.state i) m).1
  frame : ∀ i, i ∉ vars → r.1.state i = st.state i

theorem joinAll_closes {e : Expr} (hnd : vars.Nodup) {st : Store} (hlt : ∀ i ∈ vars, i < st.size)
    {f cur : Nat → Slot} (hcur : ∀ i ∈ vars, st.state i = cur i) (n : Nat) :
    let r := joinAll g e st (vars.map fun i => (i, f i, cur i, f i)) n
    Closes g e vars f st n (r.1.2, r.2) := by
  induction vars generalizing st n with
  | nil => exact ⟨Nat.le_refl n, rfl, (fun _ hi => nomatch hi), fun _ _ => rfl⟩
  | cons j vars ih =>
    obtain ⟨hj, hnd⟩ := List.nodup_cons.1 hnd
    have hjlt : j < st.size := hlt j List.mem_cons_self
    have hjcur : st.state j = cur j := hcur j List.mem_cons_self
    have hrest : ∀ i ∈ vars, i < st.size := fun i hi => hlt i (List.mem_cons_of_mem _ hi)
    have hcur' : ∀ i ∈ vars, st.state i = cur i := fun i hi => hcur i (List.mem_cons_of_mem _ hi)
    rw [List.map_cons, joinAll]
    by_cases hv : (cur j).version = (f j).version
    · rw [if_pos ⟨hv, rfl⟩]
      have h := ih hnd hrest hcur' n
      refine ⟨h.next_le, h.size_eq, fun i hi => ?_, fun i hi => ?_⟩
      · rcases List.mem_cons.1 hi with rfl | hi
        · refine ⟨n, Nat.le_refl n, ?_⟩
          rw [h.frame i hj, closeStep, if_pos (by rw [hjcur, hv])]
          rfl
        · exact h.closed i hi
      · exact h.frame i fun hmem => hi (List.mem_cons_of_mem _ hmem)
    · rw [if_neg fun hand => hv hand.1]
      have hadv := (joinArms_renews g e (cur j) (f j) (max (cur j).version (f j).version + 1) n).1
      generalize hs : joinArms g e (cur j) (f j) (max (cur j).version (f j).version + 1) = x at hadv
      rw [Mint.bind_apply, Store.replace_eq hjlt]
      generalize hr : x n = r at hadv
      have hother : ∀ i, i ≠ j → (st.put j r.1).state i = st.state i := fun i hi =>
        Store.state_put_of_ne (Ne.symm hi) r.1
      have hne : ∀ i ∈ vars, i ≠ j := by
        rintro i hi rfl
        exact hj hi
      have hrest' : ∀ i ∈ vars, i < (st.put j r.1).size := by
        intro i hi
        rw [Store.size_put]
        exact hrest i hi
      have h := ih hnd hrest' (fun i hi => by rw [hother i (hne i hi)]; exact hcur' i hi) r.2
      refine ⟨Nat.le_trans hadv h.next_le, h.size_eq.trans (Store.size_put _ _ _), fun i hi => ?_, ?_⟩
      · rcases List.mem_cons.1 hi with rfl | hi
        · refine ⟨n, Nat.le_refl n, ?_⟩
          rw [h.frame i hj, Store.state_put_self hjlt, closeStep, hjcur, if_neg hv, hs, hr]
        · obtain ⟨m, hm, hclosed⟩ := h.closed i hi
          refine ⟨m, Nat.le_trans hadv hm, ?_⟩
          rw [hclosed, hother i (hne i hi)]
      · intro i hi
        rw [h.frame i fun hmem => hi (List.mem_cons_of_mem _ hmem)]
        exact hother i fun hij => hi (hij ▸ List.mem_cons_self)

theorem finish_closes (g : Tracked) (hnd : vars.Nodup) (before : Store) {st : Store}
    (hlt : ∀ i ∈ vars, i < st.size) (n : Nat) : ∃ c' st' n',
      finish { guard := g, vars, entry := vars.map before.state, phase := .inThen } st n =
        ((.ok (), c', st'), n') ∧ Closes g (g.toExpr n).1 vars before.state st n (st', n') := by
  have harms : arms { guard := g, vars, entry := vars.map before.state, phase := .inThen } st =
      .ok (vars.map st.state, vars.map before.state) := by
    unfold arms
    rw [Store.slotsOf_eq hlt]
    rfl
  have hadv := g.toExpr_advances n
  have h := joinAll_closes (g := g) (e := (g.toExpr n).1) (f := before.state) hnd hlt (fun _ _ => rfl)
    (g.toExpr n).2
  rw [← zip_rows] at h
  refine ⟨_, _, _, finish_of_arms harms n, Nat.le_trans hadv h.next_le, h.size_eq, fun i hi => ?_, h.frame⟩
  obtain ⟨m, hm, hclosed⟩ := h.closed i hi
  exact ⟨m, Nat.le_trans hadv hm, hclosed⟩

end Conditional

end Symex
