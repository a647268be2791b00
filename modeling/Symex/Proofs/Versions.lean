import Symex.Proofs.Building
import Symex.Store

/-!
Stores as functions from variables to states. Versions only grow, and a variable whose version has
not grown has not changed: `Later` says this of two stores, and assignments make a store later.
-/

namespace Symex

namespace Store

/-! ### States -/

/-- The state of a variable; any state for one that is not declared. -/
def state (st : Store) (index : Nat) : Slot := st.slots.getD index default

section
variable {st : Store} {i j : Nat}

theorem slots_getElem? (h : i < st.size) : st.slots[i]? = some (st.state i) := by
  have h : i < st.slots.length := h
  simp [state, h]

theorem slot_eq (h : i < st.size) : st.slot i = .ok (st.state i) :=
  slot_eq_ok_iff.2 (slots_getElem? h)

theorem state_put_self (h : i < st.size) (s : Slot) : (st.put i s).state i = s := by
  have h : i < st.slots.length := h
  simp [state, put, h]

theorem state_put_of_ne (h : i ≠ j) (s : Slot) : (st.put i s).state j = st.state j := by
  simp [state, put, List.getElem?_set_ne h]

theorem slotsOf_eq {vars : List Nat} (h : ∀ i ∈ vars, i < st.size) :
    st.slotsOf vars = .ok (vars.map st.state) := by
  unfold slotsOf
  induction vars with
  | nil => rfl
  | cons i vars ih =>
    rw [List.mapM_cons, slot_eq (h i (by simp)), ih fun j hj => h j (List.mem_cons_of_mem _ hj)]
    rfl

end

/-! ### Values -/

/-- What the variables denote. -/
def values (env : Env) (st : Store) : List Scalar := st.slots.map (·.toDual.value env)

theorem length_values (env : Env) (st : Store) : (st.values env).length = st.size := by
  simp [values, size]

theorem getElem?_values (env : Env) {st : Store} {i : Nat} (h : i < st.size) :
    (st.values env)[i]? = some ((st.state i).toDual.value env) := by
  rw [values, List.getElem?_map, slots_getElem? h]
  rfl

theorem getD_values (env : Env) {st : Store} {i : Nat} (h : i < st.size) :
    (st.values env).getD i default = (st.state i).toDual.value env := by
  rw [List.getD_eq_getElem?_getD, getElem?_values env h]
  rfl

/-- The values of a store are fixed by what its variables denote. -/
theorem values_eq {env : Env} {st : Store} {σ : List Scalar} (hl : σ.length = st.size)
    (h : ∀ i < st.size, σ[i]? = some ((st.state i).toDual.value env)) : st.values env = σ := by
  apply List.ext_getElem?
  intro i
  by_cases hi : i < st.size
  · rw [getElem?_values env hi, h i hi]
  · rw [List.getElem?_eq_none (by rw [length_values]; omega), List.getElem?_eq_none (by omega)]

/-- Stores whose variables denote the same have the same values. -/
theorem values_congr {env : Env} {st st' : Store} (hs : st'.size = st.size)
    (h : ∀ i < st.size, (st'.state i).toDual.value env = (st.state i).toDual.value env) :
    st'.values env = st.values env :=
  values_eq (by rw [length_values, hs]) fun i hi => by
    rw [hs] at hi
    rw [getElem?_values env hi, h i hi]

/-! ### Types -/

/-- The variables have the types they were declared at, and denote scalars of these types. -/
structure Fits (Γ : List Ty) (st : Store) : Prop where
  size_eq : st.size = Γ.length
  ty_eq : ∀ i < st.size, Γ[i]? = some (st.state i).data.ty
  typed : ∀ i < st.size, (st.state i).toDual.Typed

theorem Fits.lt_size {Γ : List Ty} {st : Store} (h : st.Fits Γ) {i : Nat} {ty : Ty}
    (hi : Γ[i]? = some ty) : i < st.size := by
  rw [h.size_eq]
  exact (List.getElem?_eq_some_iff.1 hi).1

theorem Fits.ty_state {Γ : List Ty} {st : Store} (h : st.Fits Γ) {i : Nat} {ty : Ty}
    (hi : Γ[i]? = some ty) : (st.state i).data.ty = ty := by
  have := h.ty_eq i (h.lt_size hi)
  rw [hi] at this
  exact (Option.some.inj this).symm

/-- Types stay if no variable changes its type. -/
theorem Fits.congr {Γ : List Ty} {st st' : Store} (h : st.Fits Γ) (hs : st'.size = st.size)
    (h' : ∀ i < st.size, (st'.state i).data.ty = (st.state i).data.ty ∧ (st'.state i).toDual.Typed) :
    st'.Fits Γ := by
  refine ⟨hs.trans h.size_eq, fun i hi => ?_, fun i hi => (h' i (hs ▸ hi)).2⟩
  rw [h.ty_eq i (hs ▸ hi), (h' i (hs ▸ hi)).1]

theorem Fits.put {Γ : List Ty} {st : Store} (h : st.Fits Γ) {i : Nat} {s : Slot} (hi : i < st.size)
    (hty : s.data.ty = (st.state i).data.ty) (hs : s.toDual.Typed) : (st.put i s).Fits Γ := by
  refine h.congr (size_put _ _ _) fun j hj => ?_
  by_cases hij : i = j
  · subst hij
    rw [state_put_self hi]
    exact ⟨hty, hs⟩
  · rw [state_put_of_ne hij]
    exact ⟨rfl, h.typed j hj⟩

/-! ### Versions -/

/-- No version is smaller, and a variable with the same version is the same. -/
structure Later (st st' : Store) : Prop where
  size_eq : st'.size = st.size
  version_le : ∀ i, (st.state i).version ≤ (st'.state i).version
  state_eq : ∀ i, (st'.state i).version = (st.state i).version → st'.state i = st.state i

theorem Later.refl (st : Store) : st.Later st := ⟨rfl, fun _ => Nat.le_refl _, fun _ _ => rfl⟩

theorem Later.trans {a b c : Store} (h : a.Later b) (h' : b.Later c) : a.Later c := by
  refine ⟨h'.size_eq.trans h.size_eq, fun i => Nat.le_trans (h.version_le i) (h'.version_le i), ?_⟩
  intro i hv
  have h1 := h.version_le i
  have h2 := h'.version_le i
  rw [h'.state_eq i (by omega), h.state_eq i (by omega)]

theorem later_put {st : Store} {i : Nat} {s : Slot} (hi : i < st.size)
    (h : (st.state i).version < s.version) : st.Later (st.put i s) := by
  refine ⟨size_put _ _ _, fun j => ?_, fun j hj => ?_⟩
  · by_cases hij : i = j
    · subst hij
      rw [state_put_self hi]
      exact Nat.le_of_lt h
    · exact Nat.le_of_eq (congrArg _ (state_put_of_ne hij s).symm)
  · by_cases hij : i = j
    · subst hij
      rw [state_put_self hi] at hj
      omega
    · exact state_put_of_ne hij s

/-- What a run that may assign some variables leaves behind, with the guards it handed to scopes. If none
of these is concrete, the values are those that a function gives. -/
structure Effect (Γ : List Ty) (assigned : List Nat) (f : Env → List Scalar → List Scalar) (st : Store)
    (r : Store × List Tracked) : Prop where
  fits : r.1.Fits Γ
  later : st.Later r.1
  frame : ∀ i, i ∉ assigned → r.1.state i = st.state i
  values_eq : (∀ g ∈ r.2, g.concrete = false) → ∀ env, r.1.values env = f env (st.values env)

/-! ### Assignment -/

/-- A value read from the store is still what the variable denotes. -/
def Origin (st : Store) (v : Tracked) : Prop :=
  ∀ i n, v.origin = some ⟨i, n⟩ → ∀ env, v.toDual.value env = (st.state i).toDual.value env

theorem origin_of_none {st : Store} {v : Tracked} (h : v.origin = none) : st.Origin v := by
  intro i n hn
  rw [h] at hn
  cases hn

theorem get_eq {Γ : List Ty} {st : Store} (hst : st.Fits Γ) {x : Var} (hx : Γ[x.index]? = some x.ty) :
    st.get x = .ok { st.state x.index with origin := some ⟨x.index, (st.state x.index).version⟩ } := by
  unfold get
  rw [slot_eq (hst.lt_size hx)]
  show Except.ok _ = _
  rw [Scalar.convert_of_ty (hst.ty_state hx)]

/-- What an assignment leaves behind. -/
structure Assigned (Γ : List Ty) (st : Store) (x : Var) (f : Env → Scalar) (st' : Store) : Prop where
  fits : st'.Fits Γ
  later : st.Later st'
  frame : ∀ i, i ≠ x.index → st'.state i = st.state i
  value_eq : ∀ env, (st'.state x.index).toDual.value env = (f env).convert x.ty

theorem assign_makes {v w : Tracked} {ty : Ty} {f : Env → Scalar} (hw : w.Denotes ty f) :
    (v.assign w).Makes fun u => u.data.ty = v.ty ∧ v.version < u.version ∧
      ∀ env, u.toDual.value env = (f env).convert v.ty := by
  refine .bind (Tracked.cast_makes hw v.ty) fun c hc => .pure ⟨hc.ty_eq, ?_, hc.value_eq⟩
  show v.version < max (v.version + 1) w.version
  omega

/-- **An assignment makes the variable denote the converted value** and nothing else different. -/
theorem set_yields {Γ : List Ty} {st : Store} (hst : st.Fits Γ) {x : Var}
    (hx : Γ[x.index]? = some x.ty) {v : Tracked} {ty : Ty} {f : Env → Scalar} (hv : v.Denotes ty f)
    (ho : st.Origin v) : (st.set x v).Yields (st.Assigned Γ x f) := by
  have hlt := hst.lt_size hx
  have hty := hst.ty_state hx
  refine .bind (.ofExcept (get_eq hst hx) rfl) ?_
  rintro _ rfl
  split
  · -- the value is the one that was read, so nothing changes
    next h =>
    have hval := fun env => (ho _ _ h env).symm.trans (hv.value_eq env)
    refine .pure ⟨hst, .refl st, fun _ _ => rfl, fun env => ?_⟩
    rw [Scalar.convert_of_ty ?_, hval]
    rw [← hval, hst.typed _ hlt, hty]
  · refine .bind (.mint (assign_makes hv)) ?_
    rintro u ⟨hut, huv, hval⟩
    have hval' : ∀ env, u.toDual.value env = (f env).convert x.ty := fun env => by
      rw [hval]
      exact congrArg _ hty
    have htyped : u.toDual.Typed := fun env => by
      rw [hval', Scalar.ty_convert, hut]
      exact hty.symm
    refine .pure ⟨hst.put hlt hut htyped, later_put hlt huv,
      fun i hi => state_put_of_ne hi.symm _, fun env => ?_⟩
    rw [state_put_self hlt]
    exact hval' env

end Store

end Symex
