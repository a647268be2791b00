import Mathlib.Data.List.Basic
import Mathlib.Tactic.Choose
import Symex.Proofs.LatestWrite

/-!
Interleavings. Shared events happen one after another in some order, a write stores what its payload
is, and a read that happens has the value of the latest write before it that happens at its pointer.
Every interleaving of a recording has a model, in which clocks are positions and reads see these writes,
and the script of the recording holds in every such model.
-/

namespace Symex

/-! ### Tables -/

namespace Table

variable {κ ν : Type} [Ord κ]

/-- Keys may be replaced by others that compare in the same way. -/
theorem find?_map {κ' ν' : Type} [Ord κ'] {f : κ → κ'} (hf : ∀ a b, compare (f a) (f b) = compare a b)
    (g : ν → ν') (k : κ) (t : Table κ ν) :
    Table.find? (f k) (t.map fun e => (f e.1, g e.2)) = (t.find? k).map g := by
  induction t with
  | nil => rfl
  | cons e t ih =>
    rw [List.map_cons, find?, find?, hf, ih]
    split <;> rfl

end Table

namespace Memory

open Smt (Term TermSort Value Model)

namespace Recorder

/-- The position of an event in an order of numbers, from one. -/
def rank (order : List Nat) (e : Event) : Nat := order.idxOf e.id + 1

/-- In an order, a write is the latest before a read among those that happen at its pointer. -/
structure LatestBefore (r : Recorder) (order : List Nat) (ρ : Nat → Value) (e w : Event) : Prop where
  write : r.SharedWrite w
  zone_eq : w.zone = e.zone
  enabled : w.enabled ρ = true
  before : rank order w < rank order e
  latest : ∀ y, r.SharedWrite y → y.zone = e.zone → y.enabled ρ = true → rank order y < rank order e →
    rank order y ≤ rank order w

/-- **An interleaving**: an order of the shared events, and values of all events that are what writes
store and what reads see. -/
structure Interleaving (r : Recorder) (order : List Nat) (ρ : Nat → Value) : Prop where
  perm : order.Perm ((r.events.filter (·.addr.shared)).map (·.id))
  typed : ∀ e ∈ r.events, (ρ e.id).HasSort e.sort
  stored : ∀ w, r.SharedWrite w → w.written? ρ = some (ρ w.id)
  seen : ∀ e, r.SharedRead e → e.enabled ρ = true → ∃ w, r.LatestBefore order ρ e w ∧ ρ e.id = ρ w.id

/-- A model of an interleaving: clocks are positions above a bound, a read that happens sees the latest
write, and one that does not happen sees zero, which is no event. -/
structure Models (r : Recorder) (order : List Nat) (ρ : Nat → Value) (bound : Int) (m : Model) : Prop where
  clock : ∀ e ∈ r.events, e.addr.shared = true →
    m.get? (clockName e.id) = some (.int (bound + rank order e))
  value : ∀ e ∈ r.events, m.get? (valueName e.id) = some (ρ e.id)
  sees : ∀ e w, r.SharedRead e → e.enabled ρ = true → r.LatestBefore order ρ e w →
    Sees m e.toAccess w.toAccess
  unseen : ∀ e, r.SharedRead e → e.enabled ρ = false →
    m.applyFunc readsFrom [.int e.number] = .ok (.int 0)

section
variable {r : Recorder} {order : List Nat} {ρ : Nat → Value} {bound : Int} {m : Model}

theorem Interleaving.mem_order (h : r.Interleaving order ρ) {e : Event} (he : e ∈ r.events)
    (hs : e.addr.shared = true) : e.id ∈ order :=
  h.perm.mem_iff.2 (List.mem_map_of_mem (List.mem_filter.2 ⟨he, hs⟩))

/-- Different shared events have different positions. -/
theorem Interleaving.eq_of_rank_eq (h : r.Interleaving order ρ) (hn : r.Numbered) {e f : Event}
    (he : e ∈ r.events) (hs : e.addr.shared = true) (hf : f ∈ r.events)
    (hrank : rank order e = rank order f) : e = f :=
  hn.eq_of_id_eq he hf ((List.idxOf_inj (h.mem_order he hs)).1 (Nat.succ.inj hrank))

theorem Interleaving.latest_unique (h : r.Interleaving order ρ) (hn : r.Numbered) {e w w' : Event}
    (hw : r.LatestBefore order ρ e w) (hw' : r.LatestBefore order ρ e w') : w = w' :=
  h.eq_of_rank_eq hn hw.write.1 hw.write.2.1 hw'.write.1 (Nat.le_antisymm
    (hw'.latest w hw.write hw.zone_eq hw.enabled hw.before)
    (hw.latest w' hw'.write hw'.zone_eq hw'.enabled hw'.before))

/-! ### Models of an interleaving obey the axioms -/

namespace Models

theorem valueAt (h : r.Models order ρ bound m) {e : Event} (he : e ∈ r.events) : m.valueAt e.id = ρ e.id := by
  rw [Smt.Model.valueAt, h.value e he]
  rfl

theorem clockAt (h : r.Models order ρ bound m) {e : Event} (he : e ∈ r.events)
    (hs : e.addr.shared = true) : m.clockAt e.id = bound + rank order e := by
  rw [Smt.Model.clockAt, h.clock e he hs]

theorem valueAt_access (h : r.Models order ρ bound m) {a : Access} (ha : r.Has a) :
    m.valueAt a.id = ρ a.id := by
  obtain ⟨e, he, rfl⟩ := ha
  exact h.valueAt he

theorem enabled (h : r.Models order ρ bound m) (hs : r.Sound) {e : Event} (he : e ∈ r.events) :
    e.enabled m.valueAt = e.enabled ρ :=
  Event.enabled_congr fun a ha => h.valueAt_access (hs.guard_has e he a ha)

theorem written? (h : r.Models order ρ bound m) (hs : r.Sound) {e : Event} (he : e ∈ r.events) :
    e.written? m.valueAt = e.written? ρ :=
  Event.written?_congr fun a ha => h.valueAt_access (hs.payload_has e he a ha)

/-- The order of clocks is that of positions. -/
theorem clockAt_lt (h : r.Models order ρ bound m) {e f : Event} (he : e ∈ r.events)
    (hes : e.addr.shared = true) (hf : f ∈ r.events) (hfs : f.addr.shared = true) :
    m.clockAt e.id < m.clockAt f.id ↔ rank order e < rank order f := by
  rw [h.clockAt he hes, h.clockAt hf hfs]
  omega

end Models

section
variable (hn : r.Numbered) (hlen : r.events.length < UInt64.size) (hi : r.Interleaving order ρ)
  (hm : r.Models order ρ bound m)
include hn hlen hi hm

/-- A read that sees a write happens, and the write is the latest before it. -/
theorem latest_of_sees {e w : Event} (he : r.SharedRead e) (hw : r.SharedWrite w)
    (hsees : Sees m e.toAccess w.toAccess) :
    e.enabled ρ = true ∧ r.LatestBefore order ρ e w ∧ ρ e.id = ρ w.id := by
  cases hen : e.enabled ρ with
  | false =>
    have hzero := hsees.symm.trans (hm.unseen e he hen)
    exact absurd (Value.int.inj (Except.ok.inj hzero)) (hn.number_ne_zero hlen hw.1)
  | true =>
    obtain ⟨v, hv, hvalue⟩ := hi.seen e he hen
    obtain rfl : w = v :=
      hn.eq_of_number_eq hlen hw.1 hv.write.1 (hsees.number_eq (hm.sees e v he hen hv))
    exact ⟨rfl, hv, hvalue⟩

/-- **A model of an interleaving obeys the axioms of memory.** -/
theorem axioms_of_models (hs : r.Sound) (hone : r.SinglePointers) : r.Axioms m where
  stored := by
    intro w hw
    rw [hm.written? hs hw.1, hi.stored w hw, hm.valueAt hw.1]
  seen := by
    intro e w he hw _ hsees
    obtain ⟨hen, hlatest, hvalue⟩ := latest_of_sees hn hlen hi hm he hw hsees
    rw [hm.clockAt_lt hw.1 hw.2.1 he.1 he.2.1, hm.enabled hs hw.1, hm.enabled hs he.1,
      hm.valueAt hw.1, hm.valueAt he.1]
    exact ⟨hlatest.before, hlatest.enabled, hen, hvalue.symm⟩
  source := by
    intro e he hen
    rw [hm.enabled hs he.1] at hen
    obtain ⟨w, hlatest, -⟩ := hi.seen e he hen
    obtain ⟨p, hpe⟩ := hone.exists_mem he.1 he.2.1
    exact ⟨w, hlatest.write, ⟨p, hlatest.zone_eq ▸ hpe, hpe⟩, hm.sees e w he hen hlatest⟩
  serial := by
    intro x y hx hy hne _ hclock
    rw [hm.clockAt hx.1 hx.2.1, hm.clockAt hy.1 hy.2.1] at hclock
    exact hne (hi.eq_of_rank_eq hn hx.1 hx.2.1 hy.1 (by omega))
  replaced := by
    rintro x y e hx hy hne he ⟨p, -, hpy, hpe⟩ hsees hlt hen
    obtain ⟨-, hlatest, -⟩ := latest_of_sees hn hlen hi hm he hx hsees
    rw [hm.enabled hs hy.1] at hen
    rw [hm.clockAt_lt hx.1 hx.2.1 hy.1 hy.2.1] at hlt
    rw [hm.clockAt_lt he.1 he.2.1 hy.1 hy.2.1]
    have hyz := hone.zone_eq hy.1 hy.2.1 he.1 he.2.1 ⟨p, hpy, hpe⟩
    -- a write is no read, so the two have different positions
    have hdiffer : rank order y ≠ rank order e := by
      intro hrank
      obtain rfl := hi.eq_of_rank_eq hn hy.1 hy.2.1 he.1 hrank
      have hread := he.2.2
      have hwrite := hy.2.2
      simp [Access.isWrite, hread] at hwrite
    have hlate := hlatest.latest y hy hyz hen
    omega

end

/-! ### An interleaving has a model -/

/-- A model of events at positions in an order, in which reads see numbers. -/
def modelOf (r : Recorder) (order : List Nat) (ρ : Nat → Value) (bound : Int) (source : Event → Int) :
    Model where
  consts := .ofList (r.events.map (fun e => (valueName e.id, ρ e.id)) ++
    r.events.map fun e => (clockName e.id, .int (bound + rank order e)))
  funcs := .ofList [(readsFrom,
    { entries := (Table.ofList (r.events.map fun e => (e.number, source e))).map
        fun p => ([.int p.1], .int p.2) })]

theorem get?_modelOf_value (source : Event → Int) {e : Event} (he : e ∈ r.events) :
    (r.modelOf order ρ bound source).get? (valueName e.id) = some (ρ e.id) := by
  refine Table.find?_ofList (List.mem_append_left _ (List.mem_map_of_mem he)) ?_
  simp only [List.forall_mem_append, List.forall_mem_map, valueName_inj]
  exact ⟨fun f _ hid => by rw [hid], fun f _ hid => absurd hid.symm (valueName_ne_clockName _ _)⟩

theorem get?_modelOf_clock (source : Event → Int) {e : Event} (he : e ∈ r.events) :
    (r.modelOf order ρ bound source).get? (clockName e.id) = some (.int (bound + rank order e)) := by
  refine Table.find?_ofList (List.mem_append_right _ (List.mem_map_of_mem he)) ?_
  simp only [List.forall_mem_append, List.forall_mem_map, clockName_inj]
  exact ⟨fun f _ hid => absurd hid (valueName_ne_clockName _ _), fun f _ hid => by rw [rank, hid, rank]⟩

theorem applyFunc_modelOf (hn : r.Numbered) (hlen : r.events.length < UInt64.size) (source : Event → Int)
    {e : Event} (he : e ∈ r.events) :
    (r.modelOf order ρ bound source).applyFunc readsFrom [.int e.number] = .ok (.int (source e)) := by
  have hfind : (Table.ofList (r.events.map fun e => (e.number, source e))).find? e.number =
      some (source e) := by
    refine Table.find?_ofList (List.mem_map_of_mem he) ?_
    simp only [List.forall_mem_map]
    intro f hf hnum
    rw [hn.eq_of_number_eq hlen hf he hnum]
  have hsame : ∀ a b : Int, compare [Value.int a] [Value.int b] = compare a b := by
    intro a b
    have hint : compare (Value.int a) (Value.int b) = compare a b := rfl
    rw [List.compare_eq_compareLex, List.compareLex_cons_cons, hint]
    cases compare a b <;> rfl
  have hentry := Table.find?_map hsame Value.int e.number
    (Table.ofList (r.events.map fun e => (e.number, source e)))
  rw [hfind] at hentry
  have hfunc : (r.modelOf order ρ bound source).funcs.find? readsFrom = some _ :=
    Table.find?_insert_self _ _ _
  rw [Smt.Model.applyFunc, hfunc]
  simp only [Smt.FuncTable.valueAt?, hentry, Option.map_some, Option.some_or]

/-- **Every interleaving has a model.** -/
theorem exists_models (hn : r.Numbered) (hlen : r.events.length < UInt64.size) (hi : r.Interleaving order ρ) :
    ∃ m, r.Models order ρ bound m := by
  have hsource : ∀ e, ∃ i : Int, r.SharedRead e →
      (e.enabled ρ = true → ∃ w, r.LatestBefore order ρ e w ∧ i = w.number) ∧
        (e.enabled ρ = false → i = 0) := by
    intro e
    by_cases hen : r.SharedRead e ∧ e.enabled ρ = true
    · obtain ⟨w, hw, -⟩ := hi.seen e hen.1 hen.2
      exact ⟨w.number, fun _ => ⟨fun _ => ⟨w, hw, rfl⟩, fun hf => by simp [hen.2] at hf⟩⟩
    · exact ⟨0, fun he => ⟨fun ht => absurd ⟨he, ht⟩ hen, fun _ => rfl⟩⟩
  choose source hsource using hsource
  refine ⟨r.modelOf order ρ bound source, fun e he _ => get?_modelOf_clock source he,
    fun e he => get?_modelOf_value source he, fun e w he hen hw => ?_, fun e he hen => ?_⟩
  · obtain ⟨w', hw', hnum⟩ := (hsource e he).1 hen
    rw [Sees, applyFunc_modelOf hn hlen source he.1, hnum, hi.latest_unique hn hw hw']
  · rw [applyFunc_modelOf hn hlen source he.1, (hsource e he).2 hen]

end

end Recorder

/-- **Every interleaving satisfies the script.** Let shared events of a recording be at single pointers.
An interleaving has a model with positions above the lower bound as clocks, and the script of the
recording holds in each such model. -/
theorem interleaving_satisfies_script {ops : List Recorder.Op} (hops : Recorder.Proper {} ops)
    (hlen : (Recorder.after ops).events.length < UInt64.size) (hone : (Recorder.after ops).SinglePointers)
    {c : Config} {script : Smt.Script} (h : encode (Recorder.after ops).relation c = .ok script)
    {order : List Nat} {ρ : Nat → Value} (hi : (Recorder.after ops).Interleaving order ρ) :
    (∃ m, (Recorder.after ops).Models order ρ c.clockLowerBound m) ∧
      ∀ m, (Recorder.after ops).Models order ρ c.clockLowerBound m → script.holds m = .ok true := by
  have hn := Recorder.numbered_after ops
  have hs := Recorder.sound_after hops
  have hscript := encode_encoded (hs.requests hn) h
  refine ⟨Recorder.exists_models hn hlen hi, fun m hm => ?_⟩
  have hclock : ∀ e ∈ (Recorder.after ops).relation.events, m.Interprets (clockName e.id) .int := by
    intro e he
    obtain ⟨he, hes⟩ := hn.mem_relation.1 he
    exact ⟨_, hm.clock e he hes, .int _⟩
  have hinterprets := hscript.interprets (fun e he => ⟨_, hm.value e he, hi.typed e he⟩) hclock
  have hrf : ∀ e, (Recorder.after ops).SharedRead e → ∃ v, m.applyFunc readsFrom [.int e.number] = .ok v := by
    intro e he
    cases hen : e.enabled ρ with
    | false => exact ⟨_, hm.unseen e he hen⟩
    | true =>
      obtain ⟨w, hw, -⟩ := hi.seen e he hen
      exact ⟨_, hm.sees e w he hen hw⟩
  refine hscript.holds_iff.2 ⟨fun id hid => ?_, ?_⟩
  · obtain ⟨_, hname, -⟩ | ⟨_, hname, -, e, he, rfl⟩ := hscript.declared _ _ hid
    · exact absurd hname.symm (valueName_ne_clockName _ _)
    · obtain rfl := clockName_inj.1 hname
      rw [holds_clockBound (hclock e he)]
      obtain ⟨he, hes⟩ := hn.mem_relation.1 he
      rw [hm.clockAt he hes, Recorder.rank]
      omega
  · exact (Recorder.holds_formula_iff hn hs (hscript.known _ hinterprets) hrf).2
      (Recorder.axioms_of_models hn hlen hi hm hs hone)

theorem handover_proper : Recorder.Proper {} handover := by
  refine ⟨⟨rfl, nofun⟩, rfl, ⟨.of_accesses ?_ rfl, fun ρ _ => ⟨_, rfl⟩⟩,
    ⟨rfl, .of_accesses ?_ rfl⟩, trivial, ⟨.of_accesses ?_ rfl, fun ρ _ => ⟨_, rfl⟩⟩,
    ⟨rfl, nofun⟩, rfl, trivial, rfl, trivial⟩
  all_goals exact ⟨_, List.mem_cons_of_mem _ (List.mem_cons_self ..), rfl⟩

/-- The last read sees the first write, if it comes before the second. -/
def handoverValues (id : Nat) : Value := .bitVec ([0, 5, 5, 6, 0, 7, 5].getD id 0) 32

theorem handover_interleaving :
    (Recorder.after handover).Interleaving [1, 6, 2, 3, 4, 5] handoverValues := by
  have hsort : ∀ e ∈ (Recorder.after handover).events, e.sort = .bitVec 32 ∧
      Smt.Word.lowBits ([0, 5, 5, 6, 0, 7, 5].getD e.id 0) 32 = [0, 5, 5, 6, 0, 7, 5].getD e.id 0 := by
    decide
  have hstored : ∀ w ∈ (Recorder.after handover).events, w.isWrite = true →
      w.written? handoverValues = some (handoverValues w.id) := by decide +kernel
  have hseen : ∀ e ∈ (Recorder.after handover).events, e.isRead = true →
      e.enabled handoverValues = true → ∃ w ∈ (Recorder.after handover).events,
        (w.addr.shared = true ∧ w.isWrite = true) ∧ w.zone = e.zone ∧ w.enabled handoverValues = true ∧
        Recorder.rank [1, 6, 2, 3, 4, 5] w < Recorder.rank [1, 6, 2, 3, 4, 5] e ∧
        (∀ y ∈ (Recorder.after handover).events, y.isWrite = true → y.enabled handoverValues = true →
          Recorder.rank [1, 6, 2, 3, 4, 5] y < Recorder.rank [1, 6, 2, 3, 4, 5] e →
            Recorder.rank [1, 6, 2, 3, 4, 5] y ≤ Recorder.rank [1, 6, 2, 3, 4, 5] w) ∧
        handoverValues e.id = handoverValues w.id := by decide +kernel
  refine ⟨by decide, fun e he => ?_, fun w hw => hstored w hw.1 hw.2.2, fun e he hen => ?_⟩
  · rw [(hsort e he).1]
    exact .bitVec (hsort e he).2
  · obtain ⟨w, hw, hws, hz, hwen, hlt, hlatest, hvalue⟩ := hseen e he.1 he.2.2 hen
    exact ⟨w, ⟨⟨hw, hws⟩, hz, hwen, hlt, fun y hy _ => hlatest y hy.1 hy.2.2⟩, hvalue⟩

theorem handover_satisfies_script :
    (Recorder.after handover).Interleaving [1, 6, 2, 3, 4, 5] handoverValues ∧
    ∃ script m, encode (Recorder.after handover).relation {} = .ok script ∧
      (Recorder.after handover).Models [1, 6, 2, 3, 4, 5] handoverValues 0 m ∧
      script.holds m = .ok true := by
  have hrun : (encode (Recorder.after handover).relation {}).toOption.isSome = true := by decide +kernel
  obtain ⟨script, hs⟩ := Option.isSome_iff_exists.1 hrun
  have hlen : (Recorder.after handover).events.length < UInt64.size := by decide +kernel
  obtain ⟨⟨m, hm⟩, hall⟩ := interleaving_satisfies_script handover_proper hlen handover_singlePointers
    (eq_ok_of_toOption hs) handover_interleaving
  exact ⟨handover_interleaving, script, m, eq_ok_of_toOption hs, hm, hall m hm⟩

end Memory

end Symex
