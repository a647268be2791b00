import Symex.Proofs.FailedCalls

/-!
Agreement of data with companions. Which values have to agree, and under which environments, is left
open (`Reliance`): under one environment all values can be asked to agree, and under all environments
those that are concrete. Operators, casts and copies keep agreement either way. Joins keep it if
concreteness does not matter; where it does, a join can put the flag of one arm on a choice between
both.
-/

namespace Symex

/-! ### Values that are relied on -/

/-- Under which environments a value has to agree with its companion, by its concreteness. -/
structure Reliance where
  on : Env → Bool → Prop
  of_and : ∀ {env : Env} {a b : Bool}, on env (a && b) → on env a ∧ on env b

namespace Reliance

/-- All values, under one environment. -/
def under (env : Env) : Reliance where
  on env' _ := env' = env
  of_and h := ⟨h, h⟩

/-- Concrete values, under all environments. -/
def concrete : Reliance where
  on _ c := c = true
  of_and h := by simpa using h

/-- Concreteness does not matter. -/
def Uniform (R : Reliance) : Prop := ∀ {env : Env} {a b : Bool}, R.on env a → R.on env b

theorem uniform_under (env : Env) : (under env).Uniform := id

end Reliance

/-- The companion denotes the data where the state is relied on. -/
def Slot.Agrees (R : Reliance) (s : Slot) : Prop :=
  ∀ env, R.on env s.concrete → s.toDual.value env = s.data

section
variable {R : Reliance}

/-! ### Values -/

namespace Tracked

variable {l r v w : Tracked}

theorem new_agrees (data : Scalar) : (new data).toSlot.Agrees R := fun _ _ => rfl

theorem any_agrees {name : String} {ty : Ty}
    (h : ∀ env, R.on env false → env.value name ty = .zero ty) :
    (any name ty).Makes (·.toSlot.Agrees R) := fun _ => h

/-- A leaf of its own agrees with any data, if the environment recalls them. -/
theorem symbolize_agrees {name : String}
    (h : v.concrete = false → ∀ env, R.on env false → env.value name v.ty = v.data) :
    (v.symbolize name).Makes (·.toSlot.Agrees R) := by
  unfold symbolize
  split
  · exact fun n env _ => rfl
  · next hc =>
    have hc : v.concrete = false := by simpa using hc
    intro n env henv
    refine h hc env ?_
    rw [← hc]
    exact henv

theorem cast_agrees (hv : v.toSlot.Agrees R) (ty : Ty) :
    (v.cast ty).Makes fun w => w.concrete = v.concrete ∧ w.toSlot.Agrees R := by
  unfold cast
  split
  · exact .pure ⟨rfl, hv⟩
  · refine .bind (v.castCompanion_makes ty) fun c hc => .pure ⟨rfl, fun env henv => ?_⟩
    show Dual.value env ⟨v.data.convert ty, c⟩ = v.data.convert ty
    rw [hc env, hv env henv]

theorem not_agrees (hv : v.toSlot.Agrees R) : v.not.Makes (·.toSlot.Agrees R) := by
  refine .bind v.notCompanion_makes fun c hc => .pure fun env henv => ?_
  show Dual.value env ⟨.bool !v.isTrue, c⟩ = .bool !v.isTrue
  rw [hc env, hv env henv]
  rfl

/-- An assignment keeps agreement if what is relied on at the destination is so at the source. -/
theorem assign_agrees (hw : w.toSlot.Agrees R) (h : ∀ env, R.on env v.concrete → R.on env w.concrete) :
    (v.assign w).Makes (·.toSlot.Agrees R) := by
  refine .bind (cast_agrees hw v.ty) fun c hc => .pure fun env henv => ?_
  refine hc.2 env ?_
  rw [hc.1]
  exact h env henv

/-- A result that is relied on comes from operands that are, and denotes what they do. -/
theorem combine_agrees {op : Operator} {ty : Ty} (h : op.AbsorbsAt ty ∨ op = .eq ∨ op = .lt)
    (hl : l.toSlot.Agrees R) (hr : r.toSlot.Agrees R) {data : Scalar}
    (hdata : op.native ty [l.data.convert ty, r.data.convert ty] = data) (own : Ownership) :
    (combine op ty data l r own).Makes (·.toSlot.Agrees R) := by
  unfold combine
  split
  · refine .bind (P := fun c => ∀ env, R.on env (l.concrete && r.concrete) →
      Dual.value env ⟨data, c⟩ = data) (.map fun n env henv => ?_) fun c hc => .pure hc
    have hlv := hl env (R.of_and henv).1
    have hrv := hr env (R.of_and henv).2
    show Expr.value env _ = data
    rw [Operator.applyDuals_makes h (by rw [hlv]) (by rw [hrv]) own n, hlv, hrv]
    exact hdata
  · exact .pure fun _ _ => rfl

section
variable (hl : l.toSlot.Agrees R) (hr : r.toSlot.Agrees R) (own : Ownership)
include hl hr

theorem add_agrees : (l.add r own).Makes (·.toSlot.Agrees R) := by
  unfold add
  rw [Ty.common_eq_int]
  exact combine_agrees (.inl (.inl ⟨rfl, rfl⟩)) hl hr (Operator.native_add _ _) own

theorem lt_agrees : (l.lt r own).Makes (·.toSlot.Agrees R) := by
  unfold lt
  rw [Ty.common_eq_int]
  exact combine_agrees (.inr (.inr rfl)) hl hr (Operator.native_lt _ _) own

theorem equals_agrees : (l.equals r own).Makes (·.toSlot.Agrees R) := by
  unfold equals
  rw [Ty.common_eq_int]
  exact combine_agrees (.inr (.inl rfl)) hl hr (Operator.native_eq _ _) own

theorem and_agrees : (l.and r own).Makes (·.toSlot.Agrees R) :=
  combine_agrees (.inl (.inr (.inl rfl))) hl hr (Operator.native_and _ _) own

theorem or_agrees : (l.or r own).Makes (·.toSlot.Agrees R) :=
  combine_agrees (.inl (.inr (.inr rfl))) hl hr (Operator.native_or _ _) own

end

end Tracked

/-! ### Stores -/

/-- A state as a handle reads it. -/
def Slot.readBy (s : Slot) (x : Var) : Tracked :=
  { s with data := s.data.convert x.ty, origin := some ⟨x.index, s.version⟩ }

/-- All variables agree. -/
def Store.Agrees (R : Reliance) (st : Store) : Prop := ∀ s ∈ st.slots, s.Agrees R

namespace Store

variable {st : Store}

theorem Agrees.slot (h : st.Agrees R) {index : Nat} {s : Slot} (hs : st.slot index = .ok s) :
    s.Agrees R := h s (List.mem_of_getElem? (slot_eq_ok_iff.1 hs))

theorem Agrees.put (h : st.Agrees R) {index : Nat} {s : Slot} (hs : s.Agrees R) :
    (st.put index s).Agrees R := by
  intro x hx
  rcases List.mem_or_eq_of_mem_set hx with hx | rfl
  · exact h x hx
  · exact hs

theorem Agrees.declare (h : st.Agrees R) {v : Tracked} (hv : v.toSlot.Agrees R) :
    (st.declare v).2.Agrees R := by
  intro x hx
  rcases List.mem_append.1 hx with hx | hx
  · exact h x hx
  · obtain rfl := List.mem_singleton.1 hx
    exact hv

theorem get_of_slot {x : Var} {s : Slot} (hs : st.slot x.index = .ok s) :
    st.get x = .ok (s.readBy x) := by
  rw [get, hs]
  rfl

theorem get_eq_ok {x : Var} {v : Tracked} (h : st.get x = .ok v) :
    ∃ s, st.slot x.index = .ok s ∧ v = s.readBy x := by
  obtain ⟨s, hs, hv⟩ := bind_eq_ok.1 h
  exact ⟨s, hs, (Except.ok.inj hv).symm⟩

/-- Whether a read of a variable has the type of what is there, or there is no companion to be at odds
with. -/
def readsAs (st : Store) (x : Var) : Bool :=
  match st.slot x.index with
  | .ok s => s.companion.isNone || s.data.ty = x.ty
  | .error _ => true

/-- **A read agrees just if it has the type of what is there**, a companion being there. -/
theorem get_agrees_iff (h : st.Agrees R) {x : Var} {v : Tracked} (hv : st.get x = .ok v)
    (henv : ∃ env, R.on env v.concrete) : v.toSlot.Agrees R ↔ st.readsAs x = true := by
  obtain ⟨s, hs, rfl⟩ := get_eq_ok hv
  rw [readsAs, hs]
  show _ ↔ (s.companion.isNone || decide (s.data.ty = x.ty)) = true
  cases hc : s.companion with
  | none => exact ⟨fun _ => rfl, fun _ env _ => Dual.value_none (d := (s.readBy x).toDual) hc⟩
  | some e =>
    have hread : ∀ env, (s.readBy x).toDual.value env = e.value env := fun env => Dual.value_some hc
    have hval : ∀ env, R.on env s.concrete → e.value env = s.data := fun env he => by
      rw [← Dual.value_some hc]
      exact h.slot hs env he
    simp only [Option.isNone_some, Bool.false_or, decide_eq_true_eq]
    constructor
    · intro hag
      obtain ⟨env, he⟩ := henv
      have hag : (s.readBy x).toDual.value env = s.data.convert x.ty := hag env he
      rw [hread, hval env he] at hag
      rw [hag]
      exact Scalar.ty_convert _ _
    · intro hty env he
      rw [hread, hval env he]
      exact (Scalar.convert_of_ty hty).symm

theorem get_agrees (h : st.Agrees R) {x : Var} (hx : st.readsAs x = true) {v : Tracked}
    (hv : st.get x = .ok v) : v.toSlot.Agrees R := by
  intro env henv
  exact (get_agrees_iff h hv ⟨env, henv⟩).2 hx env henv

/-- An assignment to a variable that the store holds: nothing for a value read from it at its version,
else data and companion of the value. -/
theorem set_eq {x : Var} {s : Slot} (hs : st.slot x.index = .ok s) (v : Tracked) (n : Nat) :
    st.set x v n = .ok (if v.origin = some ⟨x.index, s.version⟩ then (st, n) else
      (st.put x.index ((s.readBy x).assign v n).1.toSlot, ((s.readBy x).assign v n).2)) := by
  unfold set
  rw [get_of_slot hs]
  show (if v.origin = some ⟨x.index, s.version⟩ then _ else _ : Build Store) n = _
  split <;> rfl

theorem set_agrees (hst : st.Agrees R) {x : Var} {v : Tracked} (hv : v.toSlot.Agrees R)
    (h : ∀ s, st.slot x.index = .ok s → ∀ env, R.on env s.concrete → R.on env v.concrete)
    {st' : Store} {n n' : Nat} (hset : st.set x v n = .ok (st', n')) : st'.Agrees R := by
  cases hs : st.slot x.index with
  | error e =>
    rw [show st.set x v n = .error e by unfold set get; rw [hs]; rfl] at hset
    cases hset
  | ok s =>
    rw [set_eq hs] at hset
    split at hset
    · cases hset
      exact hst
    · cases hset
      exact hst.put (Tracked.assign_agrees hv (h s hs) n)

theorem slotsOf_agrees (h : st.Agrees R) {vars : List Nat} {ss : List Slot}
    (hs : st.slotsOf vars = .ok ss) : ∀ s ∈ ss, s.Agrees R := by
  unfold slotsOf at hs
  induction vars generalizing ss with
  | nil =>
    obtain rfl := Except.ok.inj hs
    simp
  | cons i vars ih =>
    rw [List.mapM_cons] at hs
    obtain ⟨s, hi, hs⟩ := bind_eq_ok.1 hs
    obtain ⟨rest, hrest, hs⟩ := bind_eq_ok.1 hs
    obtain rfl := Except.ok.inj hs
    rw [List.forall_mem_cons]
    exact ⟨h.slot hi, ih hrest⟩

end Store

/-! ### Conditionals -/

/-- What a conditional has noted agrees. -/
structure Conditional.Agrees (R : Reliance) (c : Conditional) : Prop where
  guard : c.guard.toSlot.Agrees R
  entry : ∀ s ∈ c.entry, s.Agrees R
  thenArm : ∀ s ∈ c.thenArm, s.Agrees R

/-- A choice by a guard that agrees is the choice that its data make. -/
theorem Slot.agrees_of_ite (hR : R.Uniform) {g : Tracked} (hg : g.toSlot.Agrees R) {yes no s : Slot}
    (hy : yes.Agrees R) (hn : no.Agrees R) {n : Nat} {c y z : Expr}
    (hcv : ∀ env, c.value env = g.toDual.value env) (hyv : ∀ env, y.value env = yes.toDual.value env)
    (hzv : ∀ env, z.value env = no.toDual.value env) (hs : s.companion = some (.ite n c y z))
    (hdata : s.data = (if g.isTrue then yes else no).data) : s.Agrees R := by
  intro env henv
  rw [Dual.value_some hs, Expr.value, hcv, hg env (hR henv), hyv, hzv, hdata]
  show (if g.isTrue then _ else _) = _
  split
  · exact hy env (hR henv)
  · exact hn env (hR henv)

theorem joinArms_agrees (hR : R.Uniform) {g : Tracked} (hg : g.toSlot.Agrees R) {e : Expr}
    (he : ∀ env, e.value env = g.toDual.value env) {yes no : Slot} (hy : yes.Agrees R)
    (hn : no.Agrees R) (version : Nat) : (joinArms g e yes no version).Makes (·.Agrees R) := by
  unfold joinArms
  generalize htaken : (if g.isTrue then yes else no) = taken
  have hagrees : taken.Agrees R := by
    rw [← htaken]
    split
    · exact hy
    · exact hn
  dsimp only
  split
  · exact .pure hagrees
  · refine .bind yes.toDual.toExpr_makes fun y hyv => .bind no.toDual.toExpr_makes fun z hzv n => ?_
    exact Slot.agrees_of_ite hR hg hy hn he hyv hzv rfl (by rw [htaken]; rfl)

namespace Conditional

variable {c c' : Conditional} {st st' : Store}

theorem track_agrees (hc : c.Agrees R) {x : Var} (h : c.track x = (.ok (), c')) : c'.Agrees R := by
  obtain ⟨-, rfl⟩ := track_eq_ok h
  split
  · exact hc
  · exact ⟨hc.guard, hc.entry, hc.thenArm⟩

theorem beginThen_agrees (hc : c.Agrees R) (hst : st.Agrees R) {b : Bool}
    (h : c.beginThen st = (.ok b, c')) : c'.Agrees R := by
  obtain ⟨-, hlt, rfl⟩ := beginThen_eq_ok h
  exact ⟨hc.guard, Store.slotsOf_agrees hst (Store.slotsOf_eq hlt), hc.thenArm⟩

theorem restore_agrees {rows : List (Nat × Slot × Slot)} (hst : st.Agrees R)
    (h : ∀ r ∈ rows, r.2.1.Agrees R) : (restore st rows).2.Agrees R :=
  restore_induct hst fun r hr _ _ hst => hst.put (h r hr)

theorem beginElse_agrees (hc : c.Agrees R) (hst : st.Agrees R) {b : Bool}
    (h : c.beginElse st = (.ok b, c', st')) : c'.Agrees R ∧ st'.Agrees R := by
  obtain ⟨-, -, hlt, rfl, rfl⟩ := beginElse_eq_ok h
  refine ⟨⟨hc.guard, hc.entry, Store.slotsOf_agrees hst (Store.slotsOf_eq hlt)⟩, restore_agrees hst ?_⟩
  rintro ⟨i, before, after⟩ hr
  exact hc.entry before (List.of_mem_zip (List.of_mem_zip hr).2).1

theorem arms_agree (hc : c.Agrees R) (hst : st.Agrees R) {yes no : List Slot}
    (h : c.arms st = .ok (yes, no)) : (∀ s ∈ yes, s.Agrees R) ∧ ∀ s ∈ no, s.Agrees R := by
  obtain ⟨hlt, harms⟩ := arms_eq_ok h
  have hnow := Store.slotsOf_agrees hst (Store.slotsOf_eq hlt)
  rcases harms with ⟨-, rfl, rfl⟩ | ⟨-, rfl, rfl⟩
  · exact ⟨hnow, hc.entry⟩
  · exact ⟨hc.thenArm, hnow⟩

theorem joinAll_agrees (hR : R.Uniform) {g : Tracked} (hg : g.toSlot.Agrees R) {e : Expr}
    (he : ∀ env, e.value env = g.toDual.value env) {rows : List (Nat × Slot × Slot × Slot)}
    (hst : st.Agrees R) (h : ∀ r ∈ rows, r.2.2.1.Agrees R ∧ r.2.2.2.Agrees R) :
    (joinAll g e st rows).Makes (·.2.Agrees R) := by
  refine joinAll_induct hst fun r hr => ?_
  exact (joinArms_agrees hR hg he (h r hr).1 (h r hr).2 _).mono fun s hs st _ hst => hst.put hs

theorem finish_agrees (hc : c.Agrees R) (hst : st.Agrees R) {n n' : Nat}
    (h : c.finish st n = ((.ok (), c', st'), n')) : c'.Agrees R ∧ (R.Uniform → st'.Agrees R) := by
  obtain ⟨yes, no, harms, rfl, rfl, -⟩ := finish_eq_ok h
  obtain ⟨hy, hn⟩ := arms_agree hc hst harms
  refine ⟨⟨hc.guard, hc.entry, hy⟩, fun hR => ?_⟩
  refine joinAll_agrees hR hc.guard (c.guard.toDual.toExpr_makes n) hst ?_ _
  rintro ⟨i, before, y, z⟩ hr
  have hr := (List.of_mem_zip (List.of_mem_zip hr).2).2
  exact ⟨hy y (List.of_mem_zip hr).1, hn z (List.of_mem_zip hr).2⟩

end Conditional

/-! ### Loops -/

/-- What a loop has noted agrees. -/
def Loop.Agrees (R : Reliance) (l : Loop) : Prop :=
  ∀ it ∈ l.iterations, it.guard.toSlot.Agrees R ∧ ∀ s ∈ it.entry, s.Agrees R

namespace Loop

variable {l l' : Loop} {st : Store}

theorem track_agrees (hl : l.Agrees R) {x : Var} (h : l.track x = (.ok (), l')) : l'.Agrees R := by
  obtain ⟨-, rfl⟩ := track_eq_ok h
  split
  · exact hl
  · exact hl

theorem foldIterations_agrees (hR : R.Uniform) {current : Slot} (hc : current.Agrees R)
    {states : List (Tracked × Slot)} (h : ∀ p ∈ states, p.1.toSlot.Agrees R ∧ p.2.Agrees R) :
    (foldIterations current states).Makes (·.Agrees R) := by
  induction states with
  | nil => exact .pure hc
  | cons p states ih =>
    obtain ⟨g, before⟩ := p
    rw [List.forall_mem_cons] at h
    obtain ⟨⟨hg, hb⟩, h⟩ := h
    refine .bind (ih h) fun after hafter => ?_
    split
    · exact .pure hafter
    · refine .bind g.toDual.toExpr_makes fun c hcv => .bind after.toDual.toExpr_makes fun y hyv =>
        .bind before.toDual.toExpr_makes fun z hzv n => ?_
      exact Slot.agrees_of_ite hR hg hafter hb hcv hyv hzv rfl rfl

theorem column_agrees {its : List Iteration}
    (h : ∀ it ∈ its, it.guard.toSlot.Agrees R ∧ ∀ s ∈ it.entry, s.Agrees R) (position : Nat) :
    ∀ p ∈ column its position, p.1.toSlot.Agrees R ∧ p.2.Agrees R := by
  intro p hp
  obtain ⟨it, hit, hp⟩ := List.mem_filterMap.1 hp
  obtain ⟨s, hs, rfl⟩ := Option.map_eq_some_iff.1 hp
  exact ⟨(h it hit).1, (h it hit).2 s (List.mem_of_getElem? hs)⟩

theorem joinFrom_agrees (hR : R.Uniform) {its : List Iteration}
    (h : ∀ it ∈ its, it.guard.toSlot.Agrees R ∧ ∀ s ∈ it.entry, s.Agrees R) (hst : st.Agrees R)
    (position : Nat) (vars : List Nat) : (joinFrom its st position vars).Makes (·.2.Agrees R) := by
  induction vars generalizing st position with
  | nil => exact .pure hst
  | cons i vars ih =>
    rw [joinFrom]
    split
    · exact .pure hst
    · next current hcurrent =>
      dsimp only
      split
      · exact ih hst _
      · refine .bind (foldIterations_agrees hR (hst.slot hcurrent) (column_agrees h position)) ?_
        intro s hs
        have hnext : Slot.Agrees R { s with version := current.version + 1 } := hs
        exact ih (hst.put hnext) _

theorem join_agrees (hR : R.Uniform) (hl : l.Agrees R) (hst : st.Agrees R) :
    (l.join st).Makes (·.2.Agrees R) := by
  unfold join
  split
  · exact .pure hst
  · exact joinFrom_agrees hR hl hst 0 l.vars

/-- What an unwinding notes agrees, and so does what it joins. -/
theorem unwind_agrees (hl : l.Agrees R) (hst : st.Agrees R) {g : Tracked} (hg : g.toSlot.Agrees R) :
    (l.unwind st g).Makes fun r => r.2.1.Agrees R ∧ (R.Uniform → r.2.2.Agrees R) := by
  unfold unwind
  split
  · exact .pure ⟨hl, fun _ => hst⟩
  · dsimp only
    -- whatever the policy answers
    generalize (if !g.concrete || g.isTrue then l.policy.ask g else (false, l.policy)) = asked
    obtain ⟨more, policy⟩ := asked
    cases more with
    | true =>
      dsimp only
      rw [if_pos rfl]
      split
      · exact .pure ⟨hl, fun _ => hst⟩
      · next entry hentry =>
        refine .pure ⟨fun it hit => ?_, fun _ => hst⟩
        rcases List.mem_append.1 hit with hit | hit
        · exact hl it hit
        · obtain rfl := List.mem_singleton.1 hit
          exact ⟨hg, Store.slotsOf_agrees hst hentry⟩
    | false =>
      dsimp only
      rw [if_neg (by simp)]
      refine .bind (P := fun r => R.Uniform → r.2.Agrees R) (fun n hR => join_agrees hR hl hst n) ?_
      rintro ⟨answer, st'⟩ hst'
      cases answer with
      | error e => exact .pure ⟨hl, hst'⟩
      | ok u => exact .pure ⟨hl, hst'⟩

end Loop

end

end Symex
