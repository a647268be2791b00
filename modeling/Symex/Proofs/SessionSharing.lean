import Symex.Proofs.SessionAgreement
import Symex.Proofs.SessionVersions
import Symex.Proofs.WriteBack

/-!
Companions come with their data. In a run that takes no companion from outside and whose reads have the
types of what is there, one companion never goes with two different data. The data are kept in a ledger
by the stamps of the companions (`Tied`), and the ledger goes on from call to call, since stamps are
handed out in order.
-/

namespace Symex

/-! ### Ledgers -/

/-- Data by stamps. -/
abbrev Ledger := Nat → Scalar

/-- Up to a stamp nothing is entered anew. -/
def Ledger.Continues (D : Ledger) (n : Nat) (D' : Ledger) : Prop := ∀ m < n, D' m = D m

section
variable {D D' D'' : Ledger} {n n' : Nat}

theorem Ledger.Continues.refl (D : Ledger) (n : Nat) : D.Continues n D := fun _ _ => rfl

theorem Ledger.Continues.trans (h : D.Continues n D') (h' : D'.Continues n' D'') (hle : n ≤ n') :
    D.Continues n D'' := by
  intro m hm
  rw [h' m (by omega), h m hm]

/-- The companion, if there is one, is older than a stamp and goes with its data. -/
def Dual.Tied (D : Ledger) (n : Nat) (d : Dual) : Prop :=
  ∀ e, d.companion = some e → e.stamp < n ∧ d.data = D e.stamp

theorem Dual.Tied.mono {d : Dual} (h : d.Tied D n) (hc : D.Continues n D') (hle : n ≤ n') :
    d.Tied D' n' := by
  intro e he
  obtain ⟨hlt, hdata⟩ := h e he
  exact ⟨by omega, by rw [hdata, hc _ hlt]⟩

/-- What is known to be the same has the same data. -/
theorem Dual.Tied.data_eq {a b : Dual} (ha : a.Tied D n) (hb : b.Tied D n) (h : a.same b = true) :
    a.data = b.data := by
  unfold Dual.same at h
  split at h
  · next e f he hf =>
    obtain rfl : e = f := by simpa using h
    rw [(ha e he).2, (hb e hf).2]
  · simpa using h
  · cases h

/-- What is new is entered. -/
theorem Dual.Renewed.tied {d : Dual} {was : List Dual} (h : d.Renewed was n n')
    (hwas : ∀ o ∈ was, o.Tied D n) (hle : n ≤ n') : ∃ D', D.Continues n D' ∧ d.Tied D' n' := by
  rcases h with hnew | hmem
  · refine ⟨fun m => if n ≤ m then d.data else D m, fun m hm => if_neg (by omega), fun e he => ?_⟩
    obtain ⟨h1, h2⟩ := hnew e he
    exact ⟨h2, (if_pos h1).symm⟩
  · exact ⟨D, .refl D n, (hwas d hmem).mono (.refl D n) hle⟩

end

/-- A computation goes on with the ledger, and the result has a property. -/
def Mint.Ties {α : Type} (x : Mint α) (D : Ledger) (n : Nat) (Q : Ledger → Nat → α → Prop) : Prop :=
  ∃ D', D.Continues n D' ∧ n ≤ (x n).2 ∧ Q D' (x n).2 (x n).1

section
variable {α β : Type} {D : Ledger} {n : Nat} {P : Ledger → Nat → α → Prop} {Q : Ledger → Nat → β → Prop}

theorem Mint.Ties.pure {a : α} (h : P D n a) : Mint.Ties (Pure.pure a) D n P :=
  ⟨D, .refl D n, Nat.le_refl n, h⟩

theorem Mint.Ties.bind {x : Mint α} {f : α → Mint β} (hx : x.Ties D n P)
    (hf : ∀ D' n' a, D.Continues n D' → n ≤ n' → P D' n' a → (f a).Ties D' n' Q) :
    Mint.Ties (x >>= f) D n Q := by
  obtain ⟨D', hc, hle, hP⟩ := hx
  obtain ⟨D'', hc', hle', hQ⟩ := hf D' _ _ hc hle hP
  exact ⟨D'', hc.trans hc' hle, Nat.le_trans hle hle', hQ⟩

theorem Mint.Renews.ties {x : Mint α} {view : α → Dual} {was : List Dual} (hx : x.Renews view was)
    (hwas : ∀ o ∈ was, o.Tied D n) : x.Ties D n fun D' n' a => (view a).Tied D' n' := by
  obtain ⟨hle, hnew⟩ := hx n
  obtain ⟨D', hc, ht⟩ := hnew.tied hwas hle
  exact ⟨D', hc, hle, ht⟩

end

/-! ### Stores -/

/-- All variables are tied. -/
def Store.Tied (D : Ledger) (n : Nat) (st : Store) : Prop := ∀ s ∈ st.slots, s.toDual.Tied D n

section
variable {D D' : Ledger} {n n' : Nat} {st : Store}

theorem Store.Tied.mono (h : st.Tied D n) (hc : D.Continues n D') (hle : n ≤ n') : st.Tied D' n' :=
  fun s hs => (h s hs).mono hc hle

theorem Store.Tied.put (h : st.Tied D n) {s : Slot} (hs : s.toDual.Tied D n) (i : Nat) :
    (st.put i s).Tied D n := by
  intro s' hs'
  rcases List.mem_or_eq_of_mem_set hs' with hmem | rfl
  · exact h s' hmem
  · exact hs

theorem Store.Tied.state (h : st.Tied D n) {i : Nat} (hi : i < st.size) : (st.state i).toDual.Tied D n :=
  h _ (List.mem_of_getElem? (Store.slots_getElem? hi))

theorem Store.Tied.slotsOf (h : st.Tied D n) {vars : List Nat} {ss : List Slot}
    (hss : st.slotsOf vars = .ok ss) : ∀ s ∈ ss, s.toDual.Tied D n := by
  obtain ⟨hlt, rfl⟩ := Store.slotsOf_eq_ok hss
  intro s hs
  obtain ⟨i, hi, rfl⟩ := List.mem_map.1 hs
  exact h.state (hlt i hi)

theorem Store.set_ties (h : st.Tied D n) {x : Var} {v : Tracked} (hv : v.toDual.Tied D n)
    {st' : Store} (hset : st.set x v n = .ok (st', n')) :
    ∃ D', D.Continues n D' ∧ n ≤ n' ∧ st'.Tied D' n' := by
  cases hs : st.slot x.index with
  | error e =>
    rw [show st.set x v n = .error e by unfold set get; rw [hs]; rfl] at hset
    cases hset
  | ok s =>
    rw [set_eq hs] at hset
    split at hset
    · cases hset
      exact ⟨D, .refl D n, Nat.le_refl n, h⟩
    · cases hset
      have hv' : ∀ o ∈ [v.toDual], o.Tied D n := by
        intro o ho
        obtain rfl := List.mem_singleton.1 ho
        exact hv
      obtain ⟨D', hc, hle, hnew⟩ := ((s.readBy x).assign_renews v).ties hv'
      exact ⟨D', hc, hle, (h.mono hc hle).put hnew _⟩

/-! ### Scopes -/

theorem Conditional.restore_tied {rows : List (Nat × Slot × Slot)} (h : st.Tied D n)
    (hrows : ∀ r ∈ rows, r.2.1.toDual.Tied D n) : (restore st rows).2.Tied D n :=
  restore_induct h fun r hr _ _ h => h.put (s := { r.2.1 with version := r.2.2.version + 1 }) (hrows r hr) r.1

theorem Conditional.joinAll_ties {g : Tracked} {e : Expr} {rows : List (Nat × Slot × Slot × Slot)}
    (h : st.Tied D n)
    (hrows : ∀ r ∈ rows, r.2.2.1.toDual.Tied D n ∧ r.2.2.2.toDual.Tied D n) :
    (joinAll g e st rows).Ties D n fun D' n' r => r.2.Tied D' n' := by
  induction rows generalizing st D n with
  | nil => exact .pure h
  | cons r rows ih =>
    obtain ⟨i, before, yes, no⟩ := r
    have hrest := fun r hr => hrows r (List.mem_cons_of_mem _ hr)
    unfold joinAll
    split
    · exact ih h hrest
    · have harms : ∀ o ∈ [yes.toDual, no.toDual], o.Tied D n := by
        have := hrows _ List.mem_cons_self
        simpa using this
      refine .bind ((joinArms_renews g e yes no _).ties harms) fun D' n' s hc hle hs => ?_
      split
      · exact .pure (h.mono hc hle)
      · next st' hreplace =>
        obtain ⟨-, rfl⟩ := Store.replace_eq_ok hreplace
        refine ih ((h.mono hc hle).put hs i) fun r hr => ?_
        exact ⟨(hrest r hr).1.mono hc hle, (hrest r hr).2.mono hc hle⟩

theorem Conditional.beginElse_tied {c c' : Conditional} {b : Bool} {st' : Store} (h : st.Tied D n)
    (hc : ∀ s ∈ c.entry, s.toDual.Tied D n) (hb : c.beginElse st = (.ok b, c', st')) :
    (∀ s ∈ c'.entry ++ c'.thenArm, s.toDual.Tied D n) ∧ st'.Tied D n := by
  obtain ⟨-, -, hlt, rfl, rfl⟩ := beginElse_eq_ok hb
  refine ⟨fun s hs => ?_, restore_tied h fun r hr => ?_⟩
  · rcases List.mem_append.1 hs with hs | hs
    · exact hc s hs
    · exact h.slotsOf (Store.slotsOf_eq hlt) s hs
  · exact hc _ (List.of_mem_zip (List.of_mem_zip hr).2).1

theorem Conditional.finish_ties {c c' : Conditional} {st' : Store} (h : st.Tied D n)
    (hc : ∀ s ∈ c.entry ++ c.thenArm, s.toDual.Tied D n) (hf : c.finish st n = ((.ok (), c', st'), n')) :
    ∃ D', D.Continues n D' ∧ n ≤ n' ∧ st'.Tied D' n' ∧
      ∀ s ∈ c'.entry ++ c'.thenArm, s.toDual.Tied D' n' := by
  obtain ⟨yes, no, harms, rfl, rfl, rfl⟩ := finish_eq_ok hf
  obtain ⟨hlt, hphase⟩ := arms_eq_ok harms
  have harm : (∀ s ∈ yes, s.toDual.Tied D n) ∧ ∀ s ∈ no, s.toDual.Tied D n := by
    have hnow := h.slotsOf (Store.slotsOf_eq hlt)
    rcases hphase with ⟨-, rfl, rfl⟩ | ⟨-, rfl, rfl⟩
    · exact ⟨hnow, fun s hs => hc s (List.mem_append_left _ hs)⟩
    · exact ⟨fun s hs => hc s (List.mem_append_right _ hs), hnow⟩
  -- the guard becomes an expression first
  have hguard := c.guard.toExpr_advances n
  have hrows : ∀ r ∈ c.vars.zip (c.entry.zip (yes.zip no)), r.2.2.1.toDual.Tied D (c.guard.toExpr n).2 ∧
      r.2.2.2.toDual.Tied D (c.guard.toExpr n).2 := by
    intro r hr
    have hr := List.of_mem_zip (List.of_mem_zip (List.of_mem_zip hr).2).2
    exact ⟨(harm.1 _ hr.1).mono (.refl D n) hguard, (harm.2 _ hr.2).mono (.refl D n) hguard⟩
  obtain ⟨D', hcont, hle, hst'⟩ := joinAll_ties (h.mono (.refl D n) hguard) hrows
  have hcont : D.Continues n D' := fun m hm => hcont m (by omega)
  refine ⟨D', hcont, Nat.le_trans hguard hle, hst', fun s hs => ?_⟩
  have hs : s.toDual.Tied D n := by
    rcases List.mem_append.1 hs with hs | hs
    · exact hc s (List.mem_append_left _ hs)
    · exact harm.1 s hs
  exact hs.mono hcont (Nat.le_trans hguard hle)

theorem Loop.joinFrom_ties {its : List Iteration} (h : st.Tied D n)
    (hits : ∀ it ∈ its, ∀ s ∈ it.entry, s.toDual.Tied D n) (position : Nat) (vars : List Nat) :
    (joinFrom its st position vars).Ties D n fun D' n' r => r.2.Tied D' n' := by
  induction vars generalizing st D n position with
  | nil => exact .pure h
  | cons i vars ih =>
    unfold joinFrom
    split
    · exact .pure h
    · next current hcurrent =>
      obtain ⟨hi, rfl⟩ := Store.state_of_slot hcurrent
      dsimp only
      split
      · exact ih h hits _
      · have hwas : ∀ o ∈ (st.state i).toDual :: (column its position).map (·.2.toDual), o.Tied D n := by
          intro o ho
          rcases List.mem_cons.1 ho with rfl | ho
          · exact h.state hi
          · obtain ⟨p, hp, rfl⟩ := List.mem_map.1 ho
            obtain ⟨it, hit, hp⟩ := List.mem_filterMap.1 hp
            obtain ⟨s, hs, rfl⟩ := Option.map_eq_some_iff.1 hp
            exact hits it hit s (List.mem_of_getElem? hs)
        refine .bind ((foldIterations_renews _ _).ties hwas) fun D' n' s hc hle hs => ?_
        refine ih ((h.mono hc hle).put (s := { s with version := (st.state i).version + 1 }) hs i) ?_ _
        exact fun it hit s hs => (hits it hit s hs).mono hc hle

theorem Loop.unwind_ties {l : Loop} (h : st.Tied D n)
    (hl : ∀ it ∈ l.iterations, ∀ s ∈ it.entry, s.toDual.Tied D n) (g : Tracked) :
    (l.unwind st g).Ties D n fun D' n' r => r.2.2.Tied D' n' ∧
      ∀ it ∈ r.2.1.iterations, ∀ s ∈ it.entry, s.toDual.Tied D' n' := by
  have hu := unwind_unwinds l st g n
  unfold Mint.Ties
  generalize l.unwind st g n = r at hu
  cases hu with
  | kept heq => exact ⟨D, .refl D n, Nat.le_refl n, h, by rw [heq]; exact hl⟩
  | noted hentry heq =>
    refine ⟨D, .refl D n, Nat.le_refl n, h, fun it hit => ?_⟩
    rw [heq] at hit
    rcases List.mem_append.1 hit with hit | hit
    · exact hl it hit
    · obtain rfl := List.mem_singleton.1 hit
      exact h.slotsOf hentry
  | joined heq =>
    have hjoin : (l.join st).Ties D n fun D' n' r => r.2.Tied D' n' := by
      unfold join
      split
      · exact .pure h
      · exact joinFrom_ties h hl 0 l.vars
    obtain ⟨D', hc, hle, hst'⟩ := hjoin
    refine ⟨D', hc, hle, hst', ?_⟩
    rw [heq]
    exact fun it hit s hs => (hl it hit s hs).mono hc hle

end

/-! ### Sessions -/

namespace Session

open Run (Leads)

/-- The states that a scope has noted. -/
def Scope.noted : Scope → List Slot
  | .conditional c => c.entry ++ c.thenArm
  | .loop l => l.iterations.flatMap (·.entry)

/-- Values, variables and noted states are tied. -/
structure TiedAt (D : Ledger) (n : Nat) (s : Session) : Prop where
  values : ∀ e ∈ s.values, e.2.toDual.Tied D n
  stores : ∀ st ∈ s.stores, st.Tied D n
  scopes : ∀ e ∈ s.scopes, ∀ sl ∈ e.2.noted, sl.toDual.Tied D n

theorem ofConfig_tied (D : Ledger) (n : Nat) (config : Config) : (ofConfig config).TiedAt D n where
  values _ h := nomatch h
  stores st h := by
    obtain rfl := List.mem_singleton.1 h
    exact fun _ h => nomatch h
  scopes _ h := nomatch h

section
variable {D D' : Ledger} {n n' : Nat} {s s' : Session}

theorem TiedAt.mono (h : s.TiedAt D n) (hc : D.Continues n D') (hle : n ≤ n') : s.TiedAt D' n' where
  values e he := (h.values e he).mono hc hle
  stores st hst := (h.stores st hst).mono hc hle
  scopes e he sl hsl := (h.scopes e he sl hsl).mono hc hle

theorem TiedAt.next (h : s.TiedAt D n) (m : Nat) : TiedAt D n { s with next := m } :=
  ⟨h.values, h.stores, h.scopes⟩

theorem TiedAt.store (h : s.TiedAt D n) {k : Nat} {st : Store} (hst : s.stores[k]? = some st) :
    st.Tied D n :=
  h.stores st (List.mem_of_getElem? hst)

theorem TiedAt.scope (h : s.TiedAt D n) {name : String} {sc : Scope}
    (hsc : s.scopes.find? name = some sc) : ∀ sl ∈ sc.noted, sl.toDual.Tied D n := by
  obtain ⟨e, he, rfl⟩ := Table.exists_of_find? hsc
  exact h.scopes e he

theorem TiedAt.setValue (h : s.TiedAt D n) {v : Tracked} (hv : v.toDual.Tied D n) (name : String) :
    TiedAt D n { s with values := s.values.insert name v } := by
  refine ⟨fun e he => ?_, h.stores, h.scopes⟩
  rcases Table.mem_of_mem_insert he with rfl | he
  · exact hv
  · exact h.values e he

theorem TiedAt.setStore (h : s.TiedAt D n) {st : Store} (hst : st.Tied D n) (k : Nat) :
    TiedAt D n { s with stores := s.stores.set k st } := by
  refine ⟨h.values, fun st' hst' => ?_, h.scopes⟩
  rcases List.mem_or_eq_of_mem_set hst' with hmem | rfl
  · exact h.stores st' hmem
  · exact hst

theorem TiedAt.addStore (h : s.TiedAt D n) {st : Store} (hst : st.Tied D n) :
    TiedAt D n { s with stores := s.stores ++ [st] } := by
  refine ⟨h.values, fun st' hst' => ?_, h.scopes⟩
  rcases List.mem_append.1 hst' with hmem | hmem
  · exact h.stores st' hmem
  · obtain rfl := List.mem_singleton.1 hmem
    exact hst

theorem TiedAt.setScope (h : s.TiedAt D n) (sc : Scope) (hsc : ∀ sl ∈ sc.noted, sl.toDual.Tied D n)
    (name : String) : TiedAt D n { s with scopes := s.scopes.put name sc } := by
  refine ⟨h.values, h.stores, fun e he => ?_⟩
  rcases Table.mem_of_mem_put he with rfl | he
  · exact hsc
  · exact h.scopes e he

theorem Sheds.tied (h : Sheds s s') (hs : s.TiedAt D n) : s'.TiedAt D n where
  values e he := hs.values e (h.values e he)
  stores st hst := hs.stores st (h.stores ▸ hst)
  scopes e he := hs.scopes e (h.scopes ▸ he)

/-- Data of the values and variables of a session. -/
def duals (s : Session) : List Dual :=
  s.values.map (·.2.toDual) ++ s.stores.flatMap (·.slots.map (·.toDual))

theorem TiedAt.duals (h : s.TiedAt D n) : ∀ d ∈ s.duals, d.Tied D n := by
  intro d hd
  rcases List.mem_append.1 hd with hd | hd
  · obtain ⟨e, he, rfl⟩ := List.mem_map.1 hd
    exact h.values e he
  · obtain ⟨st, hst, hd⟩ := List.mem_flatMap.1 hd
    obtain ⟨sl, hsl, rfl⟩ := List.mem_map.1 hd
    exact h.stores st hst sl hsl

end

/-! ### Forms -/

section
variable {s₀ : Session}

/-- Nodes are built from data that are new or were there at first. -/
theorem mint_renews {α : Type} {s : Session} (h : Sheds s₀ s) {x : Mint α} {view : α → Dual}
    {was : List Dual} (hx : x.Renews view was)
    (hwas : ∀ o ∈ was, o.Renewed s₀.duals s₀.next s.next) :
    (mint x).Leads s (Sheds s₀) fun a s' => (view a).Renewed s₀.duals s₀.next s'.next := by
  have hstart := h.next_le
  obtain ⟨hle, hnew⟩ := hx s.next
  refine .mints (h.mint fun n => (hx n).1) ?_
  show (view (x s.next).1).Renewed s₀.duals s₀.next (x s.next).2
  rcases hnew with hnew | hmem
  · refine .inl fun e he => ?_
    have := hnew e he
    omega
  · refine (hwas _ hmem).imp_left fun hnew e he => ?_
    have := hnew e he
    omega

/-- A read that has the type of what is there gives what is there, or data without a companion. -/
theorem read_renewed {s : Session} (h : Sheds s₀ s) {k : Nat} {st : Store} (hst : s.stores[k]? = some st)
    {x : Var} (hx : st.readsAs x = true) {w : Tracked} (hw : st.get x = .ok w) :
    w.toDual.Renewed s₀.duals s₀.next s.next := by
  obtain ⟨sl, hsl, rfl⟩ := Store.get_eq_ok hw
  rw [Store.readsAs, hsl] at hx
  cases hc : sl.companion with
  | none =>
    refine .inl fun e he => ?_
    have he : sl.companion = some e := he
    rw [hc] at he
    cases he
  | some e =>
    have hty : sl.data.ty = x.ty := by simpa [hc] using hx
    have hmem : st ∈ s₀.stores := h.stores ▸ List.mem_of_getElem? hst
    refine .inr (List.mem_append_right _ (List.mem_flatMap.2 ⟨st, hmem, ?_⟩))
    rw [Store.toDual_readBy hty]
    exact List.mem_map_of_mem (List.mem_of_getElem? (Store.slot_eq_ok_iff.1 hsl))

/-- **What a form evaluates to is new, or was there.** The form takes no companion from outside, and its
reads have the types of what is there. -/
theorem evalValue_renews {v : ValueForm} (hfit : s₀.FitForm .concrete v) (inFlight : List Expr)
    {s : Session} (h : Sheds s₀ s) : (evalValue inFlight v).Leads s (Sheds s₀) fun w s' =>
      w.toDual.Renewed s₀.duals s₀.next s'.next := by
  have hnew : ∀ {x : Mint Tracked}, x.Renews (·.toDual) [] → ∀ {s}, Sheds s₀ s →
      (mint x).Leads s (Sheds s₀) fun w s' => w.toDual.Renewed s₀.duals s₀.next s'.next :=
    fun hx _ h => mint_renews h hx fun _ ho => nomatch ho
  have hold : ∀ {s : Session} {w : Tracked} {name : String} {n : Nat}, Sheds s₀ s →
      s.values.find? name = some w → w.toDual.Renewed s₀.duals s₀.next n := by
    intro s w name n h hw
    obtain ⟨e, he, rfl⟩ := Table.exists_of_find? hw
    exact .inr (List.mem_append_left _ (List.mem_map.2 ⟨e, h.values e he, rfl⟩))
  induction v generalizing inFlight s with
  | new data => exact .pure h (.inl fun _ he => nomatch he)
  | any name ty => exact hnew (Tracked.any_renews name ty) h
  | withExpr data e => exact (hfit _ (List.mem_singleton_self _)).elim
  | copy name =>
    refine (value_leads h name).mono (fun _ h => h) ?_
    rintro w s - ⟨rfl, hw⟩
    exact hold h hw
  | take name =>
    refine .bind (value_leads h name) ?_
    rintro w s - - ⟨rfl, hw⟩
    exact ⟨h.dropName .value (fun hk => nomatch hk) name, fun _ heq => Except.ok.inj heq ▸ hold h hw⟩
  | get x store =>
    refine .bind (var_leads h x) ?_
    rintro y s - - ⟨rfl, hy⟩
    refine .bind (store_leads h store) ?_
    rintro st s - - ⟨rfl, hst⟩
    refine .lift h fun w hw => read_renewed h hst ?_ hw
    have hreads : s₀.readsAs x store = true := hfit _ (List.mem_singleton_self _)
    rwa [readsAs, ← h.vars, ← h.stores, hy, hst] at hreads
  | add l r =>
    exact operator_sheds (fun a b own _ => hnew (a.combine_renews b own _ _ _)) (evalValue_sheds l)
      (evalValue_sheds r) (fun _ => rfl) inFlight h
  | lt l r =>
    exact operator_sheds (fun a b own _ => hnew (a.combine_renews b own _ _ _)) (evalValue_sheds l)
      (evalValue_sheds r) (fun _ => rfl) inFlight h
  | equals l r =>
    exact operator_sheds (fun a b own _ => hnew (a.combine_renews b own _ _ _)) (evalValue_sheds l)
      (evalValue_sheds r) (fun _ => rfl) inFlight h
  | and l r =>
    exact connective_sheds (fun a b own _ => hnew (a.combine_renews b own _ _ _)) (evalValue_sheds l)
      (evalValue_sheds r) (fun _ => rfl) inFlight h
  | or l r =>
    exact connective_sheds (fun a b own _ => hnew (a.combine_renews b own _ _ _)) (evalValue_sheds l)
      (evalValue_sheds r) (fun _ => rfl) inFlight h
  | not v =>
    refine .bind (evalValue_sheds v inFlight s h) fun w s _ h _ => ?_
    exact .bind (needBool_leads h _) fun w s _ h _ => hnew w.not_renews h
  | cast ty v ih =>
    have hv : s₀.FitForm .concrete v := fun p hp => hfit p (List.mem_cons_of_mem _ hp)
    refine .bind (ih hv inFlight h) fun w s _ h hw => mint_renews h (w.cast_renews ty) fun o ho => ?_
    obtain rfl := List.mem_singleton.1 ho
    exact hw

end

/-! ### Steps -/

/-- A state that is tied by a ledger that goes on from an earlier one. -/
def TiedFrom (D : Ledger) (n : Nat) (s : Session) : Prop :=
  ∃ D', D.Continues n D' ∧ n ≤ s.next ∧ s.TiedAt D' s.next

section
variable {D : Ledger} {n : Nat} {s : Session}

/-- Evaluation of a form enters what is new. -/
theorem evalValue_ties (hs : s.TiedAt D s.next) {v : ValueForm} (hfit : s.FitForm .concrete v)
    (inFlight : List Expr) : (evalValue inFlight v).Leads s (TiedFrom D s.next) fun w s' =>
      ∃ D', D.Continues s.next D' ∧ s.next ≤ s'.next ∧ s'.TiedAt D' s'.next ∧
        w.toDual.Tied D' s'.next := by
  refine (evalValue_renews hfit inFlight (.refl s)).mono (fun s' h => ?_) fun w s' h hw => ?_
  · exact ⟨D, .refl D _, h.next_le, (h.tied hs).mono (.refl D _) h.next_le⟩
  · obtain ⟨D', hc, hw⟩ := hw.tied hs.duals h.next_le
    exact ⟨D', hc, h.next_le, (h.tied hs).mono hc h.next_le, hw⟩

/-- Names that are lost are not missed. -/
theorem TiedAt.sheds {α : Type} (hs : s.TiedAt D s.next) {x : Run α} {Q : α → Session → Prop}
    (hx : x.Leads s (Sheds s) Q) : x.Leads s (TiedFrom D s.next) fun a s' => Sheds s s' ∧ Q a s' :=
  hx.mono (fun _ h => ⟨D, .refl D _, h.next_le, (h.tied hs).mono (.refl D _) h.next_le⟩)
    fun _ _ h hq => ⟨h, hq⟩

/-- Nodes are built, and what is made of them is entered. -/
theorem mint_ties {D' : Ledger} (hc : D.Continues n D') (hn : n ≤ s.next) (hs : s.TiedAt D' s.next)
    {α : Type} {x : Mint α} {Q : Ledger → Nat → α → Prop} (hx : x.Ties D' s.next Q) :
    (mint x).Leads s (TiedFrom D n) fun a s' => (∃ m, s' = { s with next := m }) ∧
      ∃ D', D.Continues n D' ∧ n ≤ s'.next ∧ s'.TiedAt D' s'.next ∧ Q D' s'.next a := by
  obtain ⟨D'', hc', hle, hQ⟩ := hx
  have htied := (hs.mono hc' hle).next (x s.next).2
  have hcont := hc.trans hc' hn
  have hn' := Nat.le_trans hn hle
  exact .mints ⟨D'', hcont, hn', htied⟩ ⟨⟨_, rfl⟩, D'', hcont, hn', htied, hQ⟩

/-- A call on a store that may fail, with what it leaves. -/
theorem build_ties {D' : Ledger} (hc : D.Continues n D') (hn : n ≤ s.next) (hs : s.TiedAt D' s.next)
    {α : Type} {x : Build α} {Q : Ledger → Nat → α → Prop}
    (hx : ∀ a m, x s.next = .ok (a, m) → ∃ D'', D'.Continues s.next D'' ∧ s.next ≤ m ∧ Q D'' m a) :
    (build x).Leads s (TiedFrom D n) fun a s' => ∃ D', D.Continues n D' ∧ n ≤ s'.next ∧
      s'.TiedAt D' s'.next ∧ Q D' s'.next a := by
  refine .get ?_
  split
  · exact .throw ⟨D', hc, hn, hs⟩
  · next a m hr =>
    obtain ⟨D'', hc', hle, hQ⟩ := hx a m hr
    have htied := (hs.mono hc' hle).next m
    have hcont := hc.trans hc' hn
    have hn' := Nat.le_trans hn hle
    refine ⟨⟨D'', hcont, hn', htied⟩, fun b hb => ?_⟩
    obtain rfl := Except.ok.inj hb
    exact ⟨D'', hcont, hn', htied, hQ⟩

section
variable (hs : s.TiedAt D s.next) (inFlight : List Expr)
include hs

/-- Where nothing has been entered. -/
theorem TiedAt.start : TiedFrom D s.next s := ⟨D, .refl D _, Nat.le_refl _, hs⟩

theorem symbolize_ties (name symbol : String) :
    (runStep inFlight (.symbolize name symbol)).Leads s (TiedFrom D s.next) fun _ _ => True := by
  refine .bind (value_leads hs.start name) ?_
  rintro v s - - ⟨rfl, -⟩
  refine .bind (mint_ties (.refl D _) (Nat.le_refl _) hs
    ((v.symbolize_renews symbol).ties fun _ ho => nomatch ho)) ?_
  rintro w s' - - ⟨-, D', hc, hn, hs', hw⟩
  exact .modify (.pure ⟨D', hc, hn, hs'.setValue hw name⟩ trivial)

theorem assign_ties {name : String} {v : ValueForm} (hfit : s.FitForm .concrete v) :
    (runStep inFlight (.assign name v)).Leads s (TiedFrom D s.next) fun _ _ => True := by
  refine .bind (evalValue_ties hs hfit inFlight) ?_
  rintro w s' - hI ⟨D', hc, hn, hs', hw⟩
  refine .bind (value_leads hI name) ?_
  rintro d s' - - ⟨rfl, -⟩
  refine .bind (mint_ties hc hn hs' ((d.assign_renews w).ties fun o ho => ?_)) ?_
  · obtain rfl := List.mem_singleton.1 ho
    exact hw
  rintro u s'' - - ⟨-, D'', hc, hn, hs'', hu⟩
  exact .modify (.pure ⟨D'', hc, hn, hs''.setValue hu name⟩ trivial)

theorem declare_ties {x : String} {v : ValueForm} (hfit : s.FitForm .concrete v) (k : Nat) :
    (runStep inFlight (.declare x v k)).Leads s (TiedFrom D s.next) fun _ _ => True := by
  refine .bind (evalValue_ties hs hfit inFlight) ?_
  rintro w s' - hI ⟨D', hc, hn, hs', hw⟩
  refine .bind (store_leads hI k) ?_
  rintro st s' - - ⟨rfl, hst⟩
  have hdeclared : (st.declare w).2.Tied D' s'.next := by
    intro sl hsl
    rcases List.mem_append.1 hsl with hsl | hsl
    · exact hs'.store hst sl hsl
    · obtain rfl := List.mem_singleton.1 hsl
      exact hw
  have hnext := hs'.setStore hdeclared k
  exact .modify (.modify (.pure ⟨D', hc, hn, ⟨hnext.values, hnext.stores, hnext.scopes⟩⟩ trivial))

theorem set_tied {x : String} {v : ValueForm} (hfit : s.FitForm .concrete v) (k : Nat) :
    (runStep inFlight (.set x v k)).Leads s (TiedFrom D s.next) fun _ _ => True := by
  refine .bind (evalValue_ties hs hfit inFlight) ?_
  rintro w s' - hI ⟨D', hc, hn, hs', hw⟩
  refine .bind (var_leads hI x) ?_
  rintro y s' - - ⟨rfl, -⟩
  refine .bind (store_leads hI k) ?_
  rintro st s' - - ⟨rfl, hst⟩
  refine .bind (build_ties hc hn hs' fun st' m hset => Store.set_ties (hs'.store hst) hw hset) ?_
  rintro st' s'' - - ⟨D'', hc, hn, hs'', hst'⟩
  have hnext : TiedFrom D s.next { s'' with stores := s''.stores.set k st' } :=
    ⟨D'', hc, hn, hs''.setStore hst' k⟩
  exact .modify (.bind (P := fun _ _ => True) (.lift hnext fun _ _ => trivial) fun _ _ _ h _ =>
    .pure h trivial)

theorem beginThen_ties (scope : String) (k : Nat) :
    (runStep inFlight (.beginThen scope k)).Leads s (TiedFrom D s.next) fun _ _ => True := by
  refine beginThen_leads hs.start fun c st b c' hc hst hrun => ⟨?_, trivial⟩
  refine ⟨D, .refl D _, Nat.le_refl _, hs.setScope (.conditional c') ?_ scope⟩
  obtain ⟨-, hlt, rfl⟩ := Conditional.beginThen_eq_ok hrun
  intro sl hsl
  rcases List.mem_append.1 hsl with hsl | hsl
  · exact (hs.store hst).slotsOf (Store.slotsOf_eq hlt) sl hsl
  · exact hs.scope hc sl (List.mem_append_right _ hsl)

theorem beginElse_ties (scope : String) (k : Nat) :
    (runStep inFlight (.beginElse scope k)).Leads s (TiedFrom D s.next) fun _ _ => True := by
  refine beginElse_leads hs.start fun c st b c' st' hc hst hrun => ⟨?_, trivial⟩
  obtain ⟨hnoted, hst'⟩ := Conditional.beginElse_tied (hs.store hst)
    (fun sl hsl => hs.scope hc sl (List.mem_append_left _ hsl)) hrun
  exact ⟨D, .refl D _, Nat.le_refl _, (hs.setScope (.conditional c') hnoted scope).setStore hst' k⟩

theorem finish_tied (scope : String) (k : Nat) :
    (runStep inFlight (.finish scope k)).Leads s (TiedFrom D s.next) fun _ _ => True := by
  refine finish_leads hs.start fun c st c' st' n hc hst hrun => ?_
  obtain ⟨D', hcont, hn, hst', hnoted⟩ := Conditional.finish_ties (hs.store hst) (hs.scope hc) hrun
  have hs' := (hs.mono hcont hn).next n
  exact ⟨D', hcont, hn, (hs'.setScope (.conditional c') hnoted scope).setStore hst' k⟩

theorem unwind_tied (scope : String) (v : ValueForm) (k : Nat) :
    (runStep inFlight (.unwind scope v k)).Leads s (TiedFrom D s.next) fun _ _ => True := by
  refine .bind (P := fun _ _ => True) ?_ fun _ _ _ h _ => .pure h trivial
  refine .bind (hs.sheds (evalGuard_sheds inFlight v (.refl s))) ?_
  rintro g s' - hI ⟨hsheds, -⟩
  have hs' : s'.TiedAt D s'.next := (hsheds.tied hs).mono (.refl D _) hsheds.next_le
  refine .bind (namedLoop_leads hI scope) ?_
  rintro l s' - - ⟨rfl, hl⟩
  refine .bind (store_leads hI k) ?_
  rintro st s' - - ⟨rfl, hst⟩
  have hnoted : ∀ it ∈ l.iterations, ∀ sl ∈ it.entry, sl.toDual.Tied D s'.next := fun it hit sl hsl =>
    hs'.scope hl sl (List.mem_flatMap.2 ⟨it, hit, hsl⟩)
  refine .bind (mint_ties (.refl D _) hsheds.next_le hs' (Loop.unwind_ties (hs'.store hst) hnoted g)) ?_
  rintro ⟨more, l', st'⟩ s'' - - ⟨-, D', hc, hn, hs'', hst', hl'⟩
  have hscope : ∀ sl ∈ (Scope.loop l').noted, sl.toDual.Tied D' s''.next := by
    intro sl hsl
    obtain ⟨it, hit, hsl⟩ := List.mem_flatMap.1 hsl
    exact hl' it hit sl hsl
  have hnext := (hs''.setScope _ hscope scope).setStore hst' k
  refine .modify (.modify (.bind (P := fun _ _ => True) (.lift ?_ fun _ _ => trivial) ?_))
  · exact ⟨D', hc, hn, hnext⟩
  · exact fun _ _ _ h _ => .pure h trivial

theorem track_ties (scope x : String) :
    (runStep inFlight (.track scope x)).Leads s (TiedFrom D s.next) fun _ _ => True := by
  refine track_leads hs.start (fun c y c' hc hrun => ?_) fun l y l' hl hrun => ?_
  · have heq : c'.entry ++ c'.thenArm = c.entry ++ c.thenArm := by
      obtain ⟨-, rfl⟩ := Conditional.track_eq_ok hrun
      split <;> rfl
    have hnoted : ∀ sl ∈ c'.entry ++ c'.thenArm, sl.toDual.Tied D s.next := by
      rw [heq]
      exact hs.scope hc
    exact ⟨D, .refl D _, Nat.le_refl _, hs.setScope (.conditional c') hnoted scope⟩
  · have heq : l'.iterations = l.iterations := by
      obtain ⟨-, rfl⟩ := Loop.track_eq_ok hrun
      split <;> rfl
    have hnoted : ∀ sl ∈ l'.iterations.flatMap (·.entry), sl.toDual.Tied D s.next := by
      rw [heq]
      exact hs.scope hl
    exact ⟨D, .refl D _, Nat.le_refl _, hs.setScope (.loop l') hnoted scope⟩

/-- **A call goes on with the ledger.** It takes no companion from outside, and its reads have the types
of what is there. -/
theorem runStep_ties {step : Step} (hplain : step.plain = true) (hreads : s.readsFit step = true) :
    (runStep inFlight step).Leads s (TiedFrom D s.next) fun _ _ => True := by
  have hform : ∀ v ∈ step.forms, s.FitForm .concrete v := fun v hv =>
    fitForm_of_plain hplain hreads hv fun _ _ _ _ hon => nomatch hon
  cases step with
  | bind name v =>
    refine .bind (evalValue_ties hs (hform v (by simp [Step.forms])) inFlight) ?_
    rintro w s' - - ⟨D', hc, hn, hs', hw⟩
    exact .modify (.pure ⟨D', hc, hn, hs'.setValue hw name⟩ trivial)
  | symbolize name symbol => exact symbolize_ties hs inFlight name symbol
  | assign name v => exact assign_ties hs inFlight (hform v (by simp [Step.forms]))
  | drop kind name =>
    refine .bind (P := fun _ _ => True) ⟨?_, fun _ _ => trivial⟩ fun _ _ _ h _ => .pure h trivial
    refine ⟨D, .refl D _, ?_, ?_⟩
    · cases kind <;> exact Nat.le_refl _
    · cases kind with
      | value => exact ⟨fun e he => hs.values e (List.mem_filter.1 he).1, hs.stores, hs.scopes⟩
      | expr => exact ⟨hs.values, hs.stores, hs.scopes⟩
      | draft => exact ⟨hs.values, hs.stores, hs.scopes⟩
      | scope => exact ⟨hs.values, hs.stores, fun e he => hs.scopes e (List.mem_filter.1 he).1⟩
  | newStore =>
    exact .get (.modify (.pure ⟨D, .refl D _, Nat.le_refl _, hs.addStore fun _ h => nomatch h⟩ trivial))
  | cloneStore k =>
    refine .bind (store_leads hs.start k) ?_
    rintro st s - - ⟨rfl, hst⟩
    exact .get (.modify (.pure ⟨D, .refl D _, Nat.le_refl _, hs.addStore (hs.store hst)⟩ trivial))
  | declare x v k => exact declare_ties hs inFlight (hform v (by simp [Step.forms])) k
  | set x v k => exact set_tied hs inFlight (hform v (by simp [Step.forms])) k
  | openIf name v =>
    refine .bind (hs.sheds (evalGuard_sheds inFlight v (.refl s))) ?_
    rintro g s' - - ⟨hsheds, -⟩
    have hs' : s'.TiedAt D s'.next := (hsheds.tied hs).mono (.refl D _) hsheds.next_le
    have hnext := hs'.setScope (.conditional { guard := g }) (fun _ h => nomatch h) name
    exact .modify (.pure ⟨D, .refl D _, hsheds.next_le, hnext⟩ trivial)
  | beginThen scope k => exact beginThen_ties hs inFlight scope k
  | beginElse scope k => exact beginElse_ties hs inFlight scope k
  | finish scope k => exact finish_tied hs inFlight scope k
  | openLoop name policy =>
    refine .get (.modify (.pure ⟨D, .refl D _, Nat.le_refl _, hs.setScope _ ?_ name⟩ trivial))
    cases policy with
    | none => exact fun _ h => nomatch h
    | some p => exact fun _ h => nomatch h
  | unwind scope v k => exact unwind_tied hs inFlight scope v k
  | track scope x => exact track_ties hs inFlight scope x
  | cond guard track yes no k => cases hplain
  | loop scope guard body k => cases hplain
  | _ => exact (hs.sheds (runStep_sheds (.refl s) inFlight rfl)).mono (fun _ h => h) fun _ _ _ _ => trivial

end

end

end Session

end Symex
