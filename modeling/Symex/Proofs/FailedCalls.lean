import Symex.Proofs.Stamps
import Symex.Proofs.Versions

/-!
What a call on a conditional leaves. It notes the states of all tracked variables before it puts one into
the store, and where a state was found another can be put. So a call that fails has failed before its first
write: the scope and the store are what they were, and no stamp has been handed out. A call that succeeds
has gone through all its writes.
-/

namespace Symex

/-! ### Noting and putting states -/

namespace Store

variable {st st' : Store} {i : Nat} {s : Slot} {vars : List Nat}

theorem state_of_slot (h : st.slot i = .ok s) : i < st.size ∧ st.state i = s := by
  have h := slot_eq_ok_iff.1 h
  have hi : i < st.size := (List.getElem?_eq_some_iff.1 h).1
  rw [slots_getElem? hi] at h
  exact ⟨hi, Option.some.inj h⟩

/-- If states can be noted, all variables are there. -/
theorem slotsOf_eq_ok {ss : List Slot} (h : st.slotsOf vars = .ok ss) :
    (∀ i ∈ vars, i < st.size) ∧ ss = vars.map st.state := by
  unfold slotsOf at h
  induction vars generalizing ss with
  | nil => exact ⟨fun _ hi => (nomatch hi), (Except.ok.inj h).symm⟩
  | cons i vars ih =>
    rw [List.mapM_cons] at h
    obtain ⟨s, hs, h⟩ := bind_eq_ok.1 h
    obtain ⟨rest, hrest, h⟩ := bind_eq_ok.1 h
    obtain ⟨hi, rfl⟩ := state_of_slot hs
    obtain ⟨hlt, rfl⟩ := ih hrest
    exact ⟨List.forall_mem_cons.2 ⟨hi, hlt⟩, (Except.ok.inj h).symm⟩

/-- If not, it is because of one that is not. -/
theorem slotsOf_eq_error {e : Error} (h : st.slotsOf vars = .error e) :
    ∃ i ∈ vars, st.size ≤ i ∧ e = .unknownVariable i := by
  unfold slotsOf at h
  induction vars with
  | nil => cases h
  | cons i vars ih =>
    rw [List.mapM_cons] at h
    by_cases hi : i < st.size
    · rw [slot_eq hi] at h
      cases hrest : vars.mapM st.slot with
      | ok ss =>
        rw [hrest] at h
        cases h
      | error e' =>
        rw [hrest] at h ih
        cases h
        obtain ⟨j, hj, hsize⟩ := ih rfl
        exact ⟨j, List.mem_cons_of_mem _ hj, hsize⟩
    · have hslot : st.slot i = .error (.unknownVariable i) := by
        rw [slot, List.getElem?_eq_none (Nat.le_of_not_lt hi)]
      rw [hslot] at h
      cases h
      exact ⟨i, List.mem_cons_self, Nat.le_of_not_lt hi, rfl⟩

theorem replace_eq (h : i < st.size) (s : Slot) : st.replace i s = .ok (st.put i s) := if_pos h

theorem replace_eq_ok (h : st.replace i s = .ok st') : i < st.size ∧ st' = st.put i s := by
  unfold replace at h
  split at h
  · next hi => exact ⟨hi, (Except.ok.inj h).symm⟩
  · cases h

end Store

namespace Conditional

variable {c c' : Conditional} {st st' : Store} {x : Var} {n n' : Nat} {e : Error}

/-! ### Putting back and joining -/

section
variable {rows : List (Nat × Slot × Slot)}

/-- Variables that are there can all be put back. -/
theorem restore_ok (h : ∀ r ∈ rows, r.1 < st.size) : (restore st rows).1 = .ok () := by
  induction rows generalizing st with
  | nil => rfl
  | cons r rows ih =>
    obtain ⟨hr, hrows⟩ := List.forall_mem_cons.1 h
    unfold restore
    split
    · exact ih hrows
    · rw [Store.replace_eq hr]
      refine ih fun r' hr' => ?_
      rw [Store.size_put]
      exact hrows r' hr'

/-- What holds of a store and stays when a row is put back holds after all rows, also if one of them has
no variable. -/
theorem restore_induct {P : Store → Prop} (hst : P st)
    (hput : ∀ r ∈ rows, ∀ st : Store, r.1 < st.size → P st →
      P (st.put r.1 { r.2.1 with version := r.2.2.version + 1 })) : P (restore st rows).2 := by
  induction rows generalizing st with
  | nil => exact hst
  | cons r rows ih =>
    obtain ⟨hr, hrows⟩ := List.forall_mem_cons.1 hput
    unfold restore
    split
    · exact ih hst hrows
    · split
      · exact hst
      · next st' hreplace =>
        obtain ⟨hi, rfl⟩ := Store.replace_eq_ok hreplace
        exact ih (hr st hi hst) hrows

end

section
variable {g : Tracked} {ge : Expr} {rows : List (Nat × Slot × Slot × Slot)}

/-- Variables that are there can all be joined. -/
theorem joinAll_ok (h : ∀ r ∈ rows, r.1 < st.size) (n : Nat) : (joinAll g ge st rows n).1.1 = .ok () := by
  induction rows generalizing st n with
  | nil => rfl
  | cons r rows ih =>
    obtain ⟨hr, hrows⟩ := List.forall_mem_cons.1 h
    unfold joinAll
    split
    · exact ih hrows n
    · rw [Mint.bind_apply, Store.replace_eq hr]
      refine ih (fun r' hr' => ?_) _
      rw [Store.size_put]
      exact hrows r' hr'

/-- What holds of a store and stays when a join is put holds after all joins. -/
theorem joinAll_induct {P : Store → Prop} (hst : P st)
    (hput : ∀ r ∈ rows, (joinArms g ge r.2.2.1 r.2.2.2 (max r.2.2.1.version r.2.2.2.version + 1)).Makes
      fun s => ∀ st : Store, r.1 < st.size → P st → P (st.put r.1 s)) :
    (joinAll g ge st rows).Makes fun r => P r.2 := by
  induction rows generalizing st with
  | nil => exact .pure hst
  | cons r rows ih =>
    obtain ⟨hr, hrows⟩ := List.forall_mem_cons.1 hput
    unfold joinAll
    split
    · exact ih hst hrows
    · refine .bind hr fun s hs => ?_
      split
      · exact .pure hst
      · next st' hreplace =>
        obtain ⟨hi, rfl⟩ := Store.replace_eq_ok hreplace
        exact ih (hs st hi hst) hrows

end

/-! ### Calls in their places -/

theorem beginThen_of_known (hp : c.phase = .entry) (hlt : ∀ i ∈ c.vars, i < st.size) :
    c.beginThen st = (.ok (!c.guard.concrete || c.guard.isTrue),
      { c with entry := c.vars.map st.state, phase := .inThen }) := by
  rw [beginThen, if_pos hp, Store.slotsOf_eq hlt]

/-- What was noted can be put back. -/
theorem beginElse_of_known (hp : c.phase = .inThen) (hlt : ∀ i ∈ c.vars, i < st.size) :
    c.beginElse st = (.ok (!c.guard.concrete || !c.guard.isTrue),
      { c with thenArm := c.vars.map st.state, phase := .inElse },
      (restore st (c.vars.zip (c.entry.zip (c.vars.map st.state)))).2) := by
  have hok : (restore st (c.vars.zip (c.entry.zip (c.vars.map st.state)))).1 = .ok () :=
    restore_ok fun r hr => hlt _ (List.of_mem_zip hr).1
  rw [beginElse, if_pos hp, Store.slotsOf_eq hlt]
  dsimp only
  generalize restore st (c.vars.zip (c.entry.zip (c.vars.map st.state))) = r at hok
  obtain ⟨_, st'⟩ := r
  cases hok
  rfl

/-- One of the arms is what the store holds, the other was noted. -/
theorem arms_eq_ok {yes no : List Slot} (h : c.arms st = .ok (yes, no)) : (∀ i ∈ c.vars, i < st.size) ∧
    (c.phase = .inThen ∧ yes = c.vars.map st.state ∧ no = c.entry ∨
      c.phase = .inElse ∧ yes = c.thenArm ∧ no = c.vars.map st.state) := by
  unfold arms at h
  split at h
  · next hp =>
    obtain ⟨ss, hss, h⟩ := bind_eq_ok.1 h
    obtain ⟨hlt, rfl⟩ := Store.slotsOf_eq_ok hss
    cases h
    exact ⟨hlt, .inl ⟨hp, rfl, rfl⟩⟩
  · next hp =>
    obtain ⟨ss, hss, h⟩ := bind_eq_ok.1 h
    obtain ⟨hlt, rfl⟩ := Store.slotsOf_eq_ok hss
    cases h
    exact ⟨hlt, .inr ⟨hp, rfl, rfl⟩⟩
  · cases h
  · cases h

/-- The joins at the end of a scope whose arms have come to some states, from a stamp on. -/
def joins (c : Conditional) (st : Store) (yes no : List Slot) (n : Nat) : Store × Nat :=
  let r := joinAll c.guard (c.guard.toExpr n).1 st (c.vars.zip (c.entry.zip (yes.zip no))) (c.guard.toExpr n).2
  (r.1.2, r.2)

theorem finish_of_arms {yes no : List Slot} (h : c.arms st = .ok (yes, no)) (n : Nat) :
    c.finish st n = ((.ok (), { c with thenArm := yes, phase := .ended }, (c.joins st yes no n).1),
      (c.joins st yes no n).2) := by
  have hok : (joinAll c.guard (c.guard.toExpr n).1 st (c.vars.zip (c.entry.zip (yes.zip no)))
      (c.guard.toExpr n).2).1.1 = .ok () :=
    joinAll_ok (fun r hr => (arms_eq_ok h).1 _ (List.of_mem_zip hr).1) _
  rw [finish, h, ← hok]
  rfl

/-! ### What a call comes to

A call fails and leaves everything, or it is in its place and does all that it has to do. -/

theorem track_cases (c : Conditional) (x : Var) : (∃ e, c.track x = (.error e, c)) ∨ c.phase = .entry ∧
    c.track x = (.ok (), if x.index ∈ c.vars then c else { c with vars := c.vars ++ [x.index] }) := by
  by_cases hp : c.phase = .entry
  · exact .inr ⟨hp, by rw [track, if_pos hp]⟩
  · exact .inl ⟨_, by rw [track, if_neg hp]⟩

theorem beginThen_cases (c : Conditional) (st : Store) : (∃ e, c.beginThen st = (.error e, c)) ∨
    (∀ i ∈ c.vars, i < st.size) ∧ c.beginThen st = (.ok (!c.guard.concrete || c.guard.isTrue),
      { c with entry := c.vars.map st.state, phase := .inThen }) := by
  by_cases hp : c.phase = .entry
  · cases hentry : st.slotsOf c.vars with
    | error e => exact .inl ⟨e, by rw [beginThen, if_pos hp, hentry]⟩
    | ok entry =>
      obtain ⟨hlt, -⟩ := Store.slotsOf_eq_ok hentry
      exact .inr ⟨hlt, beginThen_of_known hp hlt⟩
  · exact .inl ⟨_, by rw [beginThen, if_neg hp]⟩

theorem beginElse_cases (c : Conditional) (st : Store) : (∃ e, c.beginElse st = (.error e, c, st)) ∨
    c.phase = .inThen ∧ (∀ i ∈ c.vars, i < st.size) ∧
      c.beginElse st = (.ok (!c.guard.concrete || !c.guard.isTrue),
        { c with thenArm := c.vars.map st.state, phase := .inElse },
        (restore st (c.vars.zip (c.entry.zip (c.vars.map st.state)))).2) := by
  by_cases hp : c.phase = .inThen
  · cases harm : st.slotsOf c.vars with
    | error e => exact .inl ⟨e, by rw [beginElse, if_pos hp, harm]⟩
    | ok thenArm =>
      obtain ⟨hlt, -⟩ := Store.slotsOf_eq_ok harm
      exact .inr ⟨hp, hlt, beginElse_of_known hp hlt⟩
  · exact .inl ⟨_, by rw [beginElse, if_neg hp]⟩

theorem finish_cases (c : Conditional) (st : Store) (n : Nat) :
    (∃ e, c.finish st n = ((.error e, c, st), n)) ∨ ∃ yes no, c.arms st = .ok (yes, no) ∧
      c.finish st n = ((.ok (), { c with thenArm := yes, phase := .ended }, (c.joins st yes no n).1),
        (c.joins st yes no n).2) := by
  cases harms : c.arms st with
  | error e => exact .inl ⟨e, by rw [finish, harms]; rfl⟩
  | ok r => exact .inr ⟨r.1, r.2, rfl, finish_of_arms harms n⟩

theorem track_eq_ok (h : c.track x = (.ok (), c')) : c.phase = .entry ∧
    c' = if x.index ∈ c.vars then c else { c with vars := c.vars ++ [x.index] } := by
  rcases c.track_cases x with ⟨e, hrun⟩ | ⟨hp, hrun⟩
  · rw [hrun] at h
    cases h
  · rw [hrun] at h
    exact ⟨hp, (Prod.mk.inj h).2.symm⟩

theorem beginThen_eq_ok {b : Bool} (h : c.beginThen st = (.ok b, c')) :
    b = (!c.guard.concrete || c.guard.isTrue) ∧ (∀ i ∈ c.vars, i < st.size) ∧
      c' = { c with entry := c.vars.map st.state, phase := .inThen } := by
  rcases c.beginThen_cases st with ⟨e, hrun⟩ | ⟨hlt, hrun⟩
  · rw [hrun] at h
    cases h
  · rw [hrun] at h
    cases h
    exact ⟨rfl, hlt, rfl⟩

theorem beginElse_eq_ok {b : Bool} (h : c.beginElse st = (.ok b, c', st')) :
    b = (!c.guard.concrete || !c.guard.isTrue) ∧ c.phase = .inThen ∧ (∀ i ∈ c.vars, i < st.size) ∧
      c' = { c with thenArm := c.vars.map st.state, phase := .inElse } ∧
      st' = (restore st (c.vars.zip (c.entry.zip (c.vars.map st.state)))).2 := by
  rcases c.beginElse_cases st with ⟨e, hrun⟩ | ⟨hp, hlt, hrun⟩
  · rw [hrun] at h
    cases h
  · rw [hrun] at h
    cases h
    exact ⟨rfl, hp, hlt, rfl, rfl⟩

theorem finish_eq_ok (h : c.finish st n = ((.ok (), c', st'), n')) :
    ∃ yes no, c.arms st = .ok (yes, no) ∧ c' = { c with thenArm := yes, phase := .ended } ∧
      st' = (c.joins st yes no n).1 ∧ n' = (c.joins st yes no n).2 := by
  rcases c.finish_cases st n with ⟨e, hrun⟩ | ⟨yes, no, harms, hrun⟩
  · rw [hrun] at h
    cases h
  · rw [hrun] at h
    cases h
    exact ⟨yes, no, harms, rfl, rfl, rfl⟩

end Conditional

theorem Loop.track_cases (l : Loop) (x : Var) : (∃ e, l.track x = (.error e, l)) ∨ l.phase = .entry ∧
    l.track x = (.ok (), if x.index ∈ l.vars then l else { l with vars := l.vars ++ [x.index] }) := by
  by_cases hp : l.phase = .entry
  · exact .inr ⟨hp, by rw [track, if_pos hp]⟩
  · exact .inl ⟨_, by rw [track, if_neg hp]⟩

theorem Loop.track_eq_ok {l l' : Loop} {x : Var} (h : l.track x = (.ok (), l')) : l.phase = .entry ∧
    l' = if x.index ∈ l.vars then l else { l with vars := l.vars ++ [x.index] } := by
  rcases l.track_cases x with ⟨e, hrun⟩ | ⟨hp, hrun⟩
  · rw [hrun] at h
    cases h
  · rw [hrun] at h
    exact ⟨hp, (Prod.mk.inj h).2.symm⟩

end Symex
