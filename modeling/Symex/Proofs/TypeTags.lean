import Symex.Proofs.Joining
import Symex.Proofs.SessionVersions
import Symex.Proofs.Typing

/-!
Types and concreteness of variables never change. A variable has the tag it was declared with, its type
and its concreteness, whatever is assigned to it and however scopes reset and join it; and all companions
are well-typed at the types of their data. This holds as long as handles and scopes keep to the store they
belong to: a state that was noted in one store and put back into another can have any tag.
-/

namespace Symex

/-! ### Tags -/

/-- The type of a state, and whether it is concrete. -/
def Slot.tag (s : Slot) : Ty × Bool := (s.data.ty, s.concrete)

/-- A state that a variable can take: it has the tag of the variable, and is well-typed. -/
def Slot.Suits (tags : List (Ty × Bool)) (i : Nat) (s : Slot) : Prop :=
  tags[i]? = some s.tag ∧ s.toDual.WellTyped

/-- States that were noted, one for each variable. -/
def Snapshot (tags : List (Ty × Bool)) (vars : List Nat) (ss : List Slot) : Prop :=
  ∀ (j i : Nat) (s : Slot), vars[j]? = some i → ss[j]? = some s → s.Suits tags i

/-- A handle to a variable of its type. -/
def Var.Names (tags : List (Ty × Bool)) (x : Var) : Prop := ∃ concrete, tags[x.index]? = some (x.ty, concrete)

/-- A value that can be a guard. -/
def Tracked.IsCondition (v : Tracked) : Prop := v.ty = .bool ∧ v.toDual.WellTyped

theorem Tracked.IsCondition.toExpr_hasTy {g : Tracked} (hg : g.IsCondition) : g.toExpr.Makes (·.HasTy .bool) :=
  (Dual.toExpr_hasTy hg.2).mono fun _ he => hg.1 ▸ he

section
variable {tags tags' : List (Ty × Bool)} {i : Nat} {s : Slot}

theorem tag_mono {t : Ty × Bool} (hle : tags <+: tags') (h : tags[i]? = some t) : tags'[i]? = some t := by
  obtain ⟨hi, rfl⟩ := List.getElem?_eq_some_iff.1 h
  exact List.prefix_iff_getElem?.1 hle i hi

theorem Slot.Suits.mono (h : s.Suits tags i) (hle : tags <+: tags') : s.Suits tags' i :=
  ⟨tag_mono hle h.1, h.2⟩

theorem Snapshot.mono {vars : List Nat} {ss : List Slot} (h : Snapshot tags vars ss) (hle : tags <+: tags') :
    Snapshot tags' vars ss :=
  fun j i s hi hs => (h j i s hi hs).mono hle

theorem Var.Names.mono {x : Var} (h : x.Names tags) (hle : tags <+: tags') : x.Names tags' := by
  obtain ⟨concrete, h⟩ := h
  exact ⟨concrete, tag_mono hle h⟩

/-- The version of a state is free. -/
theorem Slot.Suits.version (h : s.Suits tags i) (version : Nat) : Slot.Suits tags i { s with version } := h

/-- A choice between two states of one variable. -/
theorem Slot.Suits.ite {yes no : Slot} (hyes : yes.Suits tags i) (hno : no.Suits tags i) {n : Nat}
    {c y z : Expr} (hc : c.HasTy .bool) (hy : y.HasTy yes.data.ty) (hz : z.HasTy no.data.ty) (b : Bool)
    (version : Nat) :
    Slot.Suits tags i { (if b then yes else no) with companion := some (.ite n c y z), version } := by
  have htag : no.tag = yes.tag := Option.some.inj (hno.1.symm.trans hyes.1)
  have hty : no.data.ty = yes.data.ty := congrArg Prod.fst htag
  rw [hty] at hz
  cases b with
  | true => exact ⟨hyes.1, Dual.wellTyped_of_some rfl (.ite n hc hy hz)⟩
  | false =>
    refine ⟨hno.1, Dual.wellTyped_of_some rfl ?_⟩
    show Expr.HasTy (.ite n c y z) no.data.ty
    rw [hty]
    exact .ite n hc hy hz

end

/-! ### Stores -/

namespace Store

/-- The tags of all variables. -/
def tags (st : Store) : List (Ty × Bool) := st.slots.map Slot.tag

/-- The variables have these tags, and their companions are well-typed. -/
structure Holds (tags : List (Ty × Bool)) (st : Store) : Prop where
  tags_eq : st.tags = tags
  wellTyped : ∀ s ∈ st.slots, s.toDual.WellTyped

variable {tags : List (Ty × Bool)} {st st' : Store}

theorem Holds.state (h : st.Holds tags) {i : Nat} (hi : i < st.size) : (st.state i).Suits tags i := by
  have hs := slots_getElem? hi
  refine ⟨?_, h.wellTyped _ (List.mem_of_getElem? hs)⟩
  rw [← h.tags_eq, Store.tags, List.getElem?_map, hs]
  rfl

theorem Holds.slot (h : st.Holds tags) {i : Nat} {s : Slot} (hs : st.slot i = .ok s) : s.Suits tags i := by
  obtain ⟨hi, rfl⟩ := state_of_slot hs
  exact h.state hi

theorem Holds.noted (h : st.Holds tags) {vars : List Nat} {ss : List Slot}
    (hss : st.slotsOf vars = .ok ss) : Snapshot tags vars ss := by
  obtain ⟨hlt, rfl⟩ := slotsOf_eq_ok hss
  intro j i s hi hs
  rw [List.getElem?_map, hi] at hs
  cases hs
  exact h.state (hlt i (List.mem_of_getElem? hi))

/-- A state that suits a variable may be put there. -/
theorem Holds.put (h : st.Holds tags) {i : Nat} {s : Slot} (hs : s.Suits tags i) : (st.put i s).Holds tags := by
  constructor
  · have hi : i < tags.length := (List.getElem?_eq_some_iff.1 hs.1).1
    have hget : tags[i] = s.tag := (List.getElem?_eq_some_iff.1 hs.1).2
    have htags : (st.put i s).tags = st.tags.set i s.tag := List.map_set
    rw [htags, h.tags_eq, ← hget, List.set_getElem_self]
  · intro s' hs'
    rcases List.mem_or_eq_of_mem_set hs' with hmem | rfl
    · exact h.wellTyped s' hmem
    · exact hs.2

theorem Holds.declare (h : st.Holds tags) {v : Tracked} (hv : v.toDual.WellTyped) :
    (st.declare v).2.Holds (tags ++ [v.toSlot.tag]) := by
  constructor
  · rw [← h.tags_eq]
    exact List.map_append
  · intro s hs
    rcases List.mem_append.1 hs with hs | hs
    · exact h.wellTyped s hs
    · obtain rfl := List.mem_singleton.1 hs
      exact hv

/-- Through a handle of its type, a variable is read as it is. -/
theorem Holds.readBy (h : st.Holds tags) {x : Var} (hx : x.Names tags) {s : Slot}
    (hs : st.slot x.index = .ok s) : (s.readBy x).data = s.data ∧ (s.readBy x).toDual.WellTyped := by
  obtain ⟨concrete, hx⟩ := hx
  obtain ⟨htag, hwt⟩ := h.slot hs
  have hty : s.data.ty = x.ty := congrArg Prod.fst (Option.some.inj (htag.symm.trans hx))
  have hdata : (s.readBy x).data = s.data := Scalar.convert_of_ty hty
  refine ⟨hdata, fun e he => ?_⟩
  rw [hdata]
  exact hwt e he

theorem Holds.get (h : st.Holds tags) {x : Var} (hx : x.Names tags) {v : Tracked} (hv : st.get x = .ok v) :
    v.toDual.WellTyped := by
  obtain ⟨s, hs, rfl⟩ := get_eq_ok hv
  exact (h.readBy hx hs).2

theorem Holds.set (h : st.Holds tags) {x : Var} (hx : x.Names tags) {v : Tracked} (hv : v.toDual.WellTyped)
    {n n' : Nat} (hset : st.set x v n = .ok (st', n')) : st'.Holds tags := by
  cases hs : st.slot x.index with
  | error e =>
    rw [show st.set x v n = .error e by unfold Store.set Store.get; rw [hs]; rfl] at hset
    cases hset
  | ok s =>
    rw [set_eq hs] at hset
    split at hset
    · cases hset
      exact h
    · cases hset
      obtain ⟨hty, hconcrete, hwt⟩ := Tracked.assign_wellTyped (s.readBy x) hv n
      refine h.put ⟨?_, hwt⟩
      have hkept : (s.readBy x).ty = s.data.ty := congrArg Scalar.ty (h.readBy hx hs).1
      rw [(h.slot hs).1, Slot.tag, Slot.tag, hty, hconcrete, hkept]
      rfl

end Store

open Store (Holds)

/-! ### Conditionals -/

/-- What a conditional has noted suits its variables, from the phase on in which it is noted. -/
structure Conditional.Typed (tags : List (Ty × Bool)) (c : Conditional) : Prop where
  guard : c.guard.IsCondition
  entry : c.phase ≠ .entry → Snapshot tags c.vars c.entry
  thenArm : c.phase = .inElse → Snapshot tags c.vars c.thenArm

section
variable {tags tags' : List (Ty × Bool)} {st st' : Store}

theorem joinArms_suits {g : Tracked} {e : Expr} (he : e.HasTy .bool) {i : Nat} {yes no : Slot}
    (hyes : yes.Suits tags i) (hno : no.Suits tags i) (version : Nat) :
    (joinArms g e yes no version).Makes (·.Suits tags i) := by
  unfold joinArms
  dsimp only
  split
  · refine .pure ?_
    split
    · exact hyes
    · exact hno
  · refine .bind (Dual.toExpr_hasTy hyes.2) fun y hy => .bind (Dual.toExpr_hasTy hno.2) fun z hz n => ?_
    exact hyes.ite hno he hy hz _ _

namespace Conditional

variable {c c' : Conditional}

theorem Typed.mono (h : c.Typed tags) (hle : tags <+: tags') : c.Typed tags' :=
  ⟨h.guard, fun hp => (h.entry hp).mono hle, fun hp => (h.thenArm hp).mono hle⟩

theorem typed_of_guard {g : Tracked} (hg : g.IsCondition) (vars : List Nat) :
    Typed tags { guard := g, vars } :=
  ⟨hg, fun h => absurd rfl h, fun h => nomatch h⟩

/-- Variables are tracked only before anything is noted. -/
theorem Typed.track (h : c.Typed tags) {x : Var} (hx : c.track x = (.ok (), c')) : c'.Typed tags := by
  obtain ⟨hphase, rfl⟩ := track_eq_ok hx
  split
  · exact h
  · refine ⟨h.guard, fun hp => absurd hphase hp, fun hp => ?_⟩
    have hp : c.phase = .inElse := hp
    rw [hphase] at hp
    cases hp

theorem Typed.beginThen (h : c.Typed tags) (hst : st.Holds tags) {b : Bool}
    (hc : c.beginThen st = (.ok b, c')) : c'.Typed tags := by
  obtain ⟨-, hlt, rfl⟩ := beginThen_eq_ok hc
  exact ⟨h.guard, fun _ => hst.noted (Store.slotsOf_eq hlt), fun hp => nomatch hp⟩

theorem restore_holds (hst : st.Holds tags) {rows : List (Nat × Slot × Slot)}
    (hrows : ∀ r ∈ rows, r.2.1.Suits tags r.1) : (restore st rows).2.Holds tags :=
  restore_induct hst fun r hr _ _ hst => hst.put ((hrows r hr).version _)

theorem Typed.beginElse (h : c.Typed tags) (hst : st.Holds tags) {b : Bool}
    (hc : c.beginElse st = (.ok b, c', st')) : c'.Typed tags ∧ st'.Holds tags := by
  obtain ⟨-, hphase, hlt, rfl, rfl⟩ := beginElse_eq_ok hc
  have hentry := h.entry (by simp [hphase])
  refine ⟨⟨h.guard, fun _ => hentry, fun _ => hst.noted (Store.slotsOf_eq hlt)⟩, restore_holds hst ?_⟩
  rintro ⟨i, before, after⟩ hr
  obtain ⟨j, hj⟩ := List.mem_iff_getElem?.1 hr
  obtain ⟨hvar, hj⟩ := List.getElem?_zip_eq_some.1 hj
  exact hentry j i before hvar (List.getElem?_zip_eq_some.1 hj).1

theorem joinAll_holds {g : Tracked} {e : Expr} (he : e.HasTy .bool) {rows : List (Nat × Slot × Slot × Slot)}
    (hst : st.Holds tags) (hrows : ∀ r ∈ rows, r.2.2.1.Suits tags r.1 ∧ r.2.2.2.Suits tags r.1) :
    (joinAll g e st rows).Makes (·.2.Holds tags) := by
  refine joinAll_induct hst fun r hr => ?_
  exact (joinArms_suits he (hrows r hr).1 (hrows r hr).2 _).mono fun s hs st _ hst => hst.put hs

theorem Typed.arms (h : c.Typed tags) (hst : st.Holds tags) {yes no : List Slot}
    (harms : c.arms st = .ok (yes, no)) :
    c.phase ≠ .entry ∧ Snapshot tags c.vars yes ∧ Snapshot tags c.vars no := by
  obtain ⟨hlt, harms⟩ := arms_eq_ok harms
  have hnow := hst.noted (Store.slotsOf_eq hlt)
  rcases harms with ⟨hphase, rfl, rfl⟩ | ⟨hphase, rfl, rfl⟩
  · have hp : c.phase ≠ .entry := by simp [hphase]
    exact ⟨hp, hnow, h.entry hp⟩
  · exact ⟨by simp [hphase], h.thenArm hphase, hnow⟩

theorem Typed.finish (h : c.Typed tags) (hst : st.Holds tags) {n n' : Nat}
    (hc : c.finish st n = ((.ok (), c', st'), n')) : c'.Typed tags ∧ st'.Holds tags := by
  obtain ⟨yes, no, harms, rfl, rfl, -⟩ := finish_eq_ok hc
  obtain ⟨hphase, hyes, hno⟩ := h.arms hst harms
  refine ⟨⟨h.guard, fun _ => h.entry hphase, fun hp => nomatch hp⟩, ?_⟩
  refine joinAll_holds (h.guard.toExpr_hasTy n) hst ?_ _
  rintro ⟨i, before, y, z⟩ hr
  obtain ⟨j, hj⟩ := List.mem_iff_getElem?.1 hr
  obtain ⟨hvar, hj⟩ := List.getElem?_zip_eq_some.1 hj
  obtain ⟨-, hj⟩ := List.getElem?_zip_eq_some.1 hj
  obtain ⟨hy, hz⟩ := List.getElem?_zip_eq_some.1 hj
  exact ⟨hyes j i y hvar hy, hno j i z hvar hz⟩

end Conditional

/-! ### Loops -/

/-- What a loop has noted suits its variables, and it has noted nothing before it unwinds. -/
structure Loop.Typed (tags : List (Ty × Bool)) (l : Loop) : Prop where
  fresh : l.phase = .entry → l.iterations = []
  iterations : ∀ it ∈ l.iterations, it.guard.IsCondition ∧ Snapshot tags l.vars it.entry

namespace Loop

variable {l l' : Loop}

theorem Typed.mono (h : l.Typed tags) (hle : tags <+: tags') : l.Typed tags' :=
  ⟨h.fresh, fun it hit => ⟨(h.iterations it hit).1, (h.iterations it hit).2.mono hle⟩⟩

theorem Typed.track (h : l.Typed tags) {x : Var} (hx : l.track x = (.ok (), l')) : l'.Typed tags := by
  obtain ⟨hphase, rfl⟩ := track_eq_ok hx
  split
  · exact h
  · refine ⟨h.fresh, fun it hit => ?_⟩
    have hit : it ∈ l.iterations := hit
    rw [h.fresh hphase] at hit
    cases hit

theorem foldIterations_suits {i : Nat} {current : Slot} (hc : current.Suits tags i)
    {states : List (Tracked × Slot)} (h : ∀ p ∈ states, p.1.IsCondition ∧ p.2.Suits tags i) :
    (foldIterations current states).Makes (·.Suits tags i) := by
  induction states with
  | nil => exact .pure hc
  | cons p states ih =>
    obtain ⟨g, before⟩ := p
    rw [List.forall_mem_cons] at h
    obtain ⟨⟨hg, hbefore⟩, h⟩ := h
    refine .bind (ih h) fun after hafter => ?_
    split
    · exact .pure hafter
    · refine .bind hg.toExpr_hasTy fun e he => .bind (Dual.toExpr_hasTy hafter.2) fun y hy =>
        .bind (Dual.toExpr_hasTy hbefore.2) fun z hz n => ?_
      exact hafter.ite hbefore he hy hz _ _

/-- Variables are joined by position: the column of a position belongs to the variable that is there. -/
theorem joinFrom_holds {its : List Iteration} {vars : List Nat} {position : Nat} (hst : st.Holds tags)
    (h : ∀ j i, vars[j]? = some i → ∀ p ∈ column its (position + j), p.1.IsCondition ∧ p.2.Suits tags i) :
    (joinFrom its st position vars).Makes (·.2.Holds tags) := by
  induction vars generalizing st position with
  | nil => exact .pure hst
  | cons i vars ih =>
    have hrest : ∀ j i, vars[j]? = some i →
        ∀ p ∈ column its (position + 1 + j), p.1.IsCondition ∧ p.2.Suits tags i := by
      intro j k hk
      rw [show position + 1 + j = position + (j + 1) by omega]
      exact h (j + 1) k hk
    unfold joinFrom
    split
    · exact .pure hst
    · next current hcurrent =>
      dsimp only
      split
      · exact ih hst hrest
      · refine .bind (foldIterations_suits (hst.slot hcurrent) (h 0 i rfl)) fun s hs => ?_
        exact ih (hst.put (hs.version _)) hrest

theorem Typed.join (h : l.Typed tags) (hst : st.Holds tags) : (l.join st).Makes (·.2.Holds tags) := by
  unfold Loop.join
  split
  · exact .pure hst
  · refine joinFrom_holds hst fun j i hi p hp => ?_
    rw [Nat.zero_add] at hp
    obtain ⟨it, hit, hp⟩ := List.mem_filterMap.1 hp
    obtain ⟨s, hs, rfl⟩ := Option.map_eq_some_iff.1 hp
    exact ⟨(h.iterations it hit).1, (h.iterations it hit).2 j i s hi hs⟩

/-- A loop that was asked is past its entry, with the variables it had. -/
theorem unwind_started (l : Loop) (st : Store) (g : Tracked) :
    (l.unwind st g).Makes fun r => r.2.1.phase ≠ .entry ∧ r.2.1.vars = l.vars := by
  unfold unwind
  split
  · next hphase => exact .pure ⟨by simp [hphase], rfl⟩
  · dsimp only
    generalize (if !g.concrete || g.isTrue then l.policy.ask g else (false, l.policy)) = asked
    obtain ⟨more, policy⟩ := asked
    cases more with
    | true =>
      dsimp only
      rw [if_pos rfl]
      split
      · exact .pure ⟨by simp, rfl⟩
      · exact .pure ⟨by simp, rfl⟩
    | false =>
      dsimp only
      rw [if_neg (by simp)]
      refine .bind (P := fun _ => True) (fun _ => trivial) fun r _ => ?_
      obtain ⟨answer, st'⟩ := r
      cases answer with
      | error e => exact .pure ⟨by simp, rfl⟩
      | ok u => exact .pure ⟨by simp, rfl⟩

theorem Typed.unwind (h : l.Typed tags) (hst : st.Holds tags) {g : Tracked} (hg : g.IsCondition) :
    (l.unwind st g).Makes fun r => r.2.1.Typed tags ∧ r.2.2.Holds tags := by
  intro n
  have hu := unwind_unwinds l st g n
  obtain ⟨hphase, hvars⟩ := unwind_started l st g n
  generalize l.unwind st g n = r at hu hphase hvars
  have htyped : (∀ it ∈ r.1.2.1.iterations, it.guard.IsCondition ∧ Snapshot tags l.vars it.entry) →
      r.1.2.1.Typed tags := by
    intro hits
    refine ⟨fun hp => absurd hp hphase, ?_⟩
    rw [hvars]
    exact hits
  cases hu with
  | kept heq => exact ⟨htyped (heq ▸ h.iterations), hst⟩
  | noted hentry heq =>
    refine ⟨htyped fun it hit => ?_, hst⟩
    rw [heq] at hit
    rcases List.mem_append.1 hit with hit | hit
    · exact h.iterations it hit
    · obtain rfl := List.mem_singleton.1 hit
      exact ⟨hg, hst.noted hentry⟩
  | joined heq => exact ⟨htyped (heq ▸ h.iterations), h.join hst n⟩

end Loop

end

end Symex
