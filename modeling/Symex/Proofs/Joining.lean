import Symex.Proofs.FailedCalls
import Symex.Proofs.Program

/-!
What a conditional leaves in a store. A joined variable chooses by the guard between what the two
arms denote (`Chooses`). Between the arms the entry is put back, and at the end the arms are merged: a
variable that neither of them has changed keeps its state.
-/

namespace Symex

open Store (Later)

/-! ### Choosing between two states -/

/-- Whether a guard holds. -/
def Tracked.holdsIn (env : Env) (g : Tracked) : Bool := (g.toDual.value env).isTrue

/-- A state that chooses by a guard between two states of one type; a concrete guard leaves the choice
open. -/
structure Slot.Chooses (g : Tracked) (yes no s : Slot) : Prop where
  ty_eq : s.data.ty = yes.data.ty
  typed : s.toDual.Typed
  value_eq : g.concrete = false → ∀ env, s.toDual.value env =
    if g.holdsIn env then yes.toDual.value env else no.toDual.value env

section
variable {g : Tracked} {yes no s : Slot} (hy : yes.toDual.Typed) (hn : no.toDual.Typed)
  (hty : no.data.ty = yes.data.ty)
include hy hn hty

/-- Where the guard is concrete, or the states are known to be the same, one of them will do. -/
theorem Slot.Chooses.of_arm (hs : s.toDual = yes.toDual ∨ s.toDual = no.toDual)
    (h : (g.concrete || yes.same no.toDual) = true) : Slot.Chooses g yes no s := by
  have hsame : g.concrete = false → ∀ env, yes.toDual.value env = no.toDual.value env := by
    intro hg env
    rw [hg, Bool.false_or] at h
    exact Dual.value_eq_of_same h env
  rcases hs with hs | hs
  · refine ⟨by rw [hs], by rw [hs]; exact hy, fun hg env => ?_⟩
    rw [hs, hsame hg env, ite_self]
  · refine ⟨by rw [hs, hty], by rw [hs]; exact hn, fun hg env => ?_⟩
    rw [hs, hsame hg env, ite_self]

/-- A companion that chooses by the guard's companion. -/
theorem Slot.Chooses.of_ite (hs : s.data = yes.data ∨ s.data = no.data) {n : Nat} {c y z : Expr}
    (hc : s.companion = some (.ite n c y z)) (hcv : ∀ env, c.value env = g.toDual.value env)
    (hyv : ∀ env, y.value env = yes.toDual.value env) (hzv : ∀ env, z.value env = no.toDual.value env) :
    Slot.Chooses g yes no s := by
  have hsty : s.data.ty = yes.data.ty := by
    rcases hs with hs | hs
    · rw [hs]
    · rw [hs, hty]
  have hval : ∀ env, s.toDual.value env =
      if g.holdsIn env then yes.toDual.value env else no.toDual.value env := by
    intro env
    rw [Dual.value_some hc, Expr.value, hcv, hyv, hzv, Tracked.holdsIn]
  refine ⟨hsty, fun env => ?_, fun _ => hval⟩
  rw [hval, hsty]
  split
  · exact hy env
  · rw [hn env, hty]

theorem joinArms_makes {e : Expr} (he : ∀ env, e.value env = g.toDual.value env) (version : Nat) :
    (joinArms g e yes no version).Makes fun s => s.version = version ∧ Slot.Chooses g yes no s := by
  unfold joinArms
  have ht : (if g.isTrue then yes else no) = yes ∨ (if g.isTrue then yes else no) = no := by
    split
    · exact .inl rfl
    · exact .inr rfl
  generalize (if g.isTrue then yes else no) = taken at ht
  dsimp only
  split
  · next h =>
    rcases ht with rfl | rfl
    · exact .pure ⟨rfl, .of_arm hy hn hty (.inl rfl) h⟩
    · exact .pure ⟨rfl, .of_arm hy hn hty (.inr rfl) h⟩
  · refine .bind yes.toDual.toExpr_makes fun y hyv => .bind no.toDual.toExpr_makes fun z hzv => ?_
    intro n
    rcases ht with rfl | rfl
    · exact ⟨rfl, .of_ite hy hn hty (.inl rfl) rfl he hyv hzv⟩
    · exact ⟨rfl, .of_ite hy hn hty (.inr rfl) rfl he hyv hzv⟩

end

/-! ### Tracking -/

/-- Adds the index of a variable, once. -/
def addTracked (vars : List Nat) (x : Var) : List Nat :=
  if x.index ∈ vars then vars else vars ++ [x.index]

/-- The indices of some variables, each once. -/
def trackedVars (track : List Var) : List Nat := track.foldl addTracked []

theorem mem_foldl_track {track : List Var} {vars : List Nat} {i : Nat} :
    i ∈ track.foldl addTracked vars ↔
      i ∈ vars ∨ i ∈ track.map Var.index := by
  induction track generalizing vars with
  | nil => simp
  | cons x track ih =>
    rw [List.foldl_cons, ih, List.map_cons, List.mem_cons, addTracked]
    split
    · next hx =>
      constructor
      · rintro (hi | hi)
        · exact .inl hi
        · exact .inr (.inr hi)
      · rintro (hi | rfl | hi)
        · exact .inl hi
        · exact .inl hx
        · exact .inr hi
    · simp [or_assoc]

theorem mem_trackedVars {track : List Var} {i : Nat} :
    i ∈ trackedVars track ↔ i ∈ track.map Var.index := by
  rw [trackedVars, mem_foldl_track]
  simp

theorem nodup_trackedVars (track : List Var) : (trackedVars track).Nodup := by
  suffices h : ∀ vars : List Nat, vars.Nodup → (track.foldl addTracked vars).Nodup from
    h [] List.nodup_nil
  induction track with
  | nil => exact fun vars h => h
  | cons x track ih =>
    intro vars h
    rw [List.foldl_cons, addTracked]
    split
    · exact ih vars h
    · next hx =>
      refine ih _ (List.nodup_append.2 ⟨h, by simp, fun a ha b hb => ?_⟩)
      rintro rfl
      exact hx (List.mem_singleton.1 hb ▸ ha)

theorem Conditional.tracking_eq (g : Tracked) (track : List Var) :
    Conditional.tracking g track = .ok { guard := g, vars := trackedVars track } := by
  suffices h : ∀ vars, track.foldlM (fun c x => (c.track x).1.map fun _ => (c.track x).2)
      ({ guard := g, vars } : Conditional) = .ok { guard := g, vars := track.foldl addTracked vars } from h []
  induction track with
  | nil => exact fun vars => rfl
  | cons x track ih =>
    intro vars
    rw [List.foldlM_cons, List.foldl_cons, ← ih, Conditional.track, addTracked, if_pos rfl]
    split
    · rfl
    · rfl

theorem Loop.tracking_eq (bound : Nat) (track : List Var) :
    Loop.tracking bound track = .ok { policy := .bounded bound, vars := trackedVars track } := by
  suffices h : ∀ vars, track.foldlM (fun l x => (l.track x).1.map fun _ => (l.track x).2)
      ({ policy := .bounded bound, vars } : Loop) =
        .ok { policy := .bounded bound, vars := track.foldl addTracked vars } from h []
  induction track with
  | nil => exact fun vars => rfl
  | cons x track ih =>
    intro vars
    rw [List.foldlM_cons, List.foldl_cons, ← ih, Loop.track, addTracked, if_pos rfl]
    split
    · rfl
    · rfl

/-! ### Conditionals -/

namespace Conditional

/-- Variables that the first arm has changed get their entry state back, at a version of its own. -/
theorem state_restore (st : Store) {vars : List Nat} (h : ∀ i ∈ vars, i < st.size)
    (before after : Nat → Slot) :
    (restore st (vars.zip ((vars.map before).zip (vars.map after)))).2.size = st.size ∧
      ∀ i, (restore st (vars.zip ((vars.map before).zip (vars.map after)))).2.state i =
        if i ∈ vars ∧ (after i).version ≠ (before i).version then
          { before i with version := (after i).version + 1 }
        else st.state i := by
  induction vars generalizing st with
  | nil => exact ⟨rfl, fun i => by simp [restore]⟩
  | cons j vars ih =>
    simp only [List.map_cons, List.zip_cons_cons, restore]
    split
    · next hv =>
      obtain ⟨hs, hi⟩ := ih st fun i hi => h i (List.mem_cons_of_mem _ hi)
      refine ⟨hs, fun i => ?_⟩
      rw [hi i]
      by_cases hij : i = j
      · subst hij
        simp [hv]
      · simp [hij]
    · next hv =>
      have hj := h j (by simp)
      rw [Store.replace_eq hj]
      obtain ⟨hs, hi⟩ := ih (st.put j { before j with version := (after j).version + 1 })
        fun i hi => by rw [Store.size_put]; exact h i (List.mem_cons_of_mem _ hi)
      refine ⟨hs.trans (Store.size_put _ _ _), fun i => ?_⟩
      rw [hi i]
      by_cases hij : i = j
      · subst hij
        simp [hv, Store.state_put_self hj]
      · simp [hij, Store.state_put_of_ne (Ne.symm hij)]

/-- Each tracked variable that an arm has changed becomes a join of the two, and the others keep their
states; what holds of every join holds of the variables that became one. -/
theorem joinAll_puts {g : Tracked} {e : Expr} {st : Store} {vars : List Nat} (h : ∀ i ∈ vars, i < st.size)
    (before : Nat → Slot) {yes no : Nat → Slot} {Q : Nat → Slot → Prop}
    (hQ : ∀ i ∈ vars, (joinArms g e (yes i) (no i) (max (yes i).version (no i).version + 1)).Makes (Q i)) :
    (joinAll g e st (vars.zip ((vars.map before).zip ((vars.map yes).zip (vars.map no))))).Makes
      fun r => r.2.size = st.size ∧ ∀ i,
        (i ∈ vars ∧ ¬((yes i).version = (before i).version ∧ (no i).version = (before i).version) →
          Q i (r.2.state i)) ∧
        (i ∉ vars ∨ (yes i).version = (before i).version ∧ (no i).version = (before i).version →
          r.2.state i = st.state i) := by
  induction vars generalizing st with
  | nil => exact .pure ⟨rfl, fun i => ⟨fun hi => absurd hi.1 (by simp), fun _ => rfl⟩⟩
  | cons j vars ih =>
    have hj := h j (by simp)
    have ih := fun st hst => @ih st hst fun i hi => hQ i (List.mem_cons_of_mem _ hi)
    simp only [List.map_cons, List.zip_cons_cons, joinAll]
    split
    · next hv =>
      refine (ih st fun i hi => h i (List.mem_cons_of_mem _ hi)).mono fun st' hst' => ?_
      refine ⟨hst'.1, fun i => ⟨?_, fun hc => ?_⟩⟩
      · rintro ⟨hi, hc⟩
        rcases List.mem_cons.1 hi with rfl | hi
        · exact absurd hv hc
        · exact (hst'.2 i).1 ⟨hi, hc⟩
      · refine (hst'.2 i).2 (hc.imp_left fun hi => ?_)
        exact fun hm => hi (List.mem_cons_of_mem _ hm)
    · next hv =>
      refine .bind (hQ j (by simp)) fun s hs => ?_
      rw [Store.replace_eq hj]
      refine (ih (st.put j s) fun i hi => ?_).mono fun st' hst' => ?_
      · rw [Store.size_put]
        exact h i (List.mem_cons_of_mem _ hi)
      refine ⟨hst'.1.trans (Store.size_put _ _ _), fun i => ⟨?_, fun hc => ?_⟩⟩
      · rintro ⟨hi, hc⟩
        by_cases hm : i ∈ vars
        · exact (hst'.2 i).1 ⟨hm, hc⟩
        · obtain rfl : i = j := (List.mem_cons.1 hi).resolve_right hm
          rw [(hst'.2 i).2 (.inl hm), Store.state_put_self hj]
          exact hs
      · have hij : j ≠ i := by
          rintro rfl
          exact hc.elim (fun hi => hi (by simp)) hv
        rw [(hst'.2 i).2 (hc.imp_left fun hi hm => hi (List.mem_cons_of_mem _ hm)),
          Store.state_put_of_ne hij]

/-- A store after two arms: every variable chooses between them, and one that both left alone is as
before. -/
structure Merged (Γ : List Ty) (g : Tracked) (st yes no st' : Store) : Prop where
  fits : st'.Fits Γ
  later : st.Later st'
  frame : ∀ i, yes.state i = st.state i → no.state i = st.state i → st'.state i = st.state i
  value_eq : g.concrete = false → ∀ env, ∀ i < st.size, (st'.state i).toDual.value env =
    if g.holdsIn env then (yes.state i).toDual.value env else (no.state i).toDual.value env

section
variable {Γ : List Ty} {g : Tracked} {st yes no : Store} {vars : List Nat}

/-- Joining the tracked variables merges the arms if they changed nothing else. The current store is
that of either arm. -/
theorem joinAll_merges {e : Expr} (he : ∀ env, e.value env = g.toDual.value env)
    (hyes : yes.Fits Γ) (hno : no.Fits Γ) (hly : st.Later yes) (hln : st.Later no)
    (hvars : ∀ i ∈ vars, i < st.size)
    (hframe : ∀ i ∉ vars, yes.state i = st.state i ∧ no.state i = st.state i) {cur : Store}
    (hcur : cur = yes ∨ cur = no) :
    (joinAll g e cur (vars.zip ((vars.map st.state).zip
      ((vars.map yes.state).zip (vars.map no.state))))).Makes fun r => Merged Γ g st yes no r.2 := by
  have hsize : cur.size = st.size := by
    rcases hcur with rfl | rfl
    · exact hly.size_eq
    · exact hln.size_eq
  have hty : ∀ i < st.size, (no.state i).data.ty = (yes.state i).data.ty := fun i hi => by
    have h1 := hyes.ty_eq i (by rw [hly.size_eq]; exact hi)
    have h2 := hno.ty_eq i (by rw [hln.size_eq]; exact hi)
    rw [h1] at h2
    exact (Option.some.inj h2).symm
  have hjoin : ∀ i ∈ vars, (joinArms g e (yes.state i) (no.state i)
      (max (yes.state i).version (no.state i).version + 1)).Makes fun s =>
        s.version = max (yes.state i).version (no.state i).version + 1 ∧
          Slot.Chooses g (yes.state i) (no.state i) s := by
    intro i hi
    have hi := hvars i hi
    exact joinArms_makes (hyes.typed i (by rw [hly.size_eq]; exact hi))
      (hno.typed i (by rw [hln.size_eq]; exact hi)) (hty i hi) he _
  refine (joinAll_puts (fun i hi => hsize ▸ hvars i hi) _ hjoin).mono ?_
  rintro ⟨_, st'⟩ ⟨hs', hst'⟩
  dsimp only at hs' hst' ⊢
  -- a variable is joined, or no arm has changed it
  have cases : ∀ i,
      ((st'.state i).version = max (yes.state i).version (no.state i).version + 1 ∧
        Slot.Chooses g (yes.state i) (no.state i) (st'.state i)) ∨
      (yes.state i = st.state i ∧ no.state i = st.state i ∧ st'.state i = st.state i) := by
    intro i
    by_cases hc : i ∈ vars ∧ ¬((yes.state i).version = (st.state i).version ∧
        (no.state i).version = (st.state i).version)
    · exact .inl ((hst' i).1 hc)
    · have hsame : yes.state i = st.state i ∧ no.state i = st.state i := by
        by_cases hi : i ∈ vars
        · have hv := Decidable.not_not.1 fun hv => hc ⟨hi, hv⟩
          exact ⟨hly.state_eq i hv.1, hln.state_eq i hv.2⟩
        · exact hframe i hi
      refine .inr ⟨hsame.1, hsame.2, ?_⟩
      rw [(hst' i).2 (by rw [hsame.1, hsame.2]; exact .inr ⟨rfl, rfl⟩)]
      rcases hcur with rfl | rfl
      · exact hsame.1
      · exact hsame.2
  refine ⟨?_, ⟨hs'.trans hsize, fun i => ?_, fun i hv => ?_⟩, fun i hy hn => ?_, fun hg env i hi => ?_⟩
  · refine hyes.congr (by rw [hs', hsize, hly.size_eq]) fun i hi => ?_
    rcases cases i with ⟨-, hc⟩ | ⟨hy, -, h⟩
    · exact ⟨hc.ty_eq, hc.typed⟩
    · rw [h, ← hy]
      exact ⟨rfl, hyes.typed i hi⟩
  · have := hly.version_le i
    rcases cases i with ⟨hv, -⟩ | ⟨-, -, h⟩
    · omega
    · exact Nat.le_of_eq (congrArg _ h.symm)
  · have := hly.version_le i
    rcases cases i with ⟨hv', -⟩ | ⟨-, -, h⟩
    · omega
    · exact h
  · rw [(hst' i).2 (by rw [hy, hn]; exact .inr ⟨rfl, rfl⟩)]
    rcases hcur with rfl | rfl
    · exact hy
    · exact hn
  · rcases cases i with ⟨-, hc⟩ | ⟨hy, hn, h⟩
    · exact hc.value_eq hg env
    · rw [hy, hn, h, ite_self]

/-! ### Calls on a conditional -/

/-- Between the arms the variables denote what they did on entry. -/
theorem restore_fits (hst : st.Fits Γ) (hly : st.Later yes) (hvars : ∀ i ∈ vars, i < st.size)
    (hframe : ∀ i ∉ vars, yes.state i = st.state i) {mid : Store}
    (hmid : mid = (restore yes (vars.zip ((vars.map st.state).zip (vars.map yes.state)))).2) :
    mid.Fits Γ ∧ st.Later mid ∧ (∀ i, (mid.state i).toDual = (st.state i).toDual) ∧
      ∀ i, yes.state i = st.state i → mid.state i = st.state i := by
  obtain ⟨hs, hi⟩ := state_restore yes (fun i hi => by rw [hly.size_eq]; exact hvars i hi)
    st.state yes.state
  rw [← hmid] at hs hi
  have cases : ∀ i, mid.state i = { st.state i with version := (yes.state i).version + 1 } ∨
      mid.state i = st.state i := by
    intro i
    rw [hi i]
    split
    · exact .inl rfl
    · next hc =>
      refine .inr ?_
      by_cases hm : i ∈ vars
      · exact hly.state_eq i (Decidable.not_not.1 fun hv => hc ⟨hm, hv⟩)
      · exact hframe i hm
  have hdual : ∀ i, (mid.state i).toDual = (st.state i).toDual := by
    intro i
    rcases cases i with h | h <;> rw [h]
  refine ⟨hst.congr (hs.trans hly.size_eq) fun i hi => ?_, ⟨hs.trans hly.size_eq, fun i => ?_, ?_⟩,
    hdual, fun i hy => ?_⟩
  · rw [hdual i]
    exact ⟨rfl, hst.typed i hi⟩
  · have := hly.version_le i
    rcases cases i with h | h
    · rw [h]
      exact Nat.le_succ_of_le this
    · exact Nat.le_of_eq (congrArg _ h.symm)
  · intro i hv
    have := hly.version_le i
    rcases cases i with h | h
    · rw [h] at hv
      exact absurd hv (Nat.ne_of_gt (Nat.lt_succ_of_le this))
    · exact h
  · rw [hi i, if_neg fun hc => hc.2 (congrArg _ hy), hy]

/-- Once the arms are there, the end is what the joins are. -/
theorem finish_makes {c : Conditional} {cur : Store} {yes no : List Slot} {P : Store → Prop}
    (harms : c.arms cur = .ok (yes, no))
    (hjoin : ∀ e, (∀ env, e.value env = c.guard.toDual.value env) →
      (joinAll c.guard e cur (c.vars.zip (c.entry.zip (yes.zip no)))).Makes fun r => P r.2) :
    (c.finish cur).Makes fun r => r.1 = .ok () ∧ P r.2.2 := by
  intro n
  rw [finish_of_arms harms]
  exact ⟨rfl, hjoin _ (c.guard.toDual.toExpr_makes n) _⟩

/-- Without a second arm, the end merges the first arm with the entry. -/
theorem finish_inThen_makes (hst : st.Fits Γ) (hyes : yes.Fits Γ) (hly : st.Later yes)
    (hvars : ∀ i ∈ vars, i < st.size) (hframe : ∀ i ∉ vars, yes.state i = st.state i) :
    (finish { guard := g, vars, entry := vars.map st.state, phase := .inThen } yes).Makes fun r =>
      r.1 = .ok () ∧ Merged Γ g st yes st r.2.2 := by
  have harms : arms { guard := g, vars, entry := vars.map st.state, phase := .inThen } yes =
      .ok (vars.map yes.state, vars.map st.state) := by
    unfold arms
    rw [Store.slotsOf_eq fun i hi => by rw [hly.size_eq]; exact hvars i hi]
    rfl
  exact finish_makes harms fun e he =>
    joinAll_merges he hyes hst hly (.refl st) hvars (fun i hi => ⟨hframe i hi, rfl⟩) (.inl rfl)

/-- With a second arm, the end merges the two. -/
theorem finish_inElse_makes (hyes : yes.Fits Γ) (hno : no.Fits Γ) (hly : st.Later yes)
    (hln : st.Later no) (hvars : ∀ i ∈ vars, i < st.size)
    (hframe : ∀ i ∉ vars, yes.state i = st.state i ∧ no.state i = st.state i) :
    (finish
      { guard := g, vars, entry := vars.map st.state, thenArm := vars.map yes.state, phase := .inElse }
      no).Makes fun r => r.1 = .ok () ∧ Merged Γ g st yes no r.2.2 := by
  have harms : arms
      { guard := g, vars, entry := vars.map st.state, thenArm := vars.map yes.state, phase := .inElse }
      no = .ok (vars.map yes.state, vars.map no.state) := by
    unfold arms
    rw [Store.slotsOf_eq fun i hi => by rw [hln.size_eq]; exact hvars i hi]
    rfl
  exact finish_makes harms fun e he => joinAll_merges he hyes hno hly hln hvars hframe (.inr rfl)

end

end Conditional

end Symex
