import Mathlib.Data.List.Nodup
import Symex.Proofs.Passes
import Symex.Proofs.Recording

/-!
The axioms of memory. A model of the symbols of a recording gives its events values and clocks, and
tells which write a read sees. The script of the recording holds in a well-sorted model if and only if
these obey the axioms, which are about events that have pointers in common and not about atoms.
-/

namespace Symex

open Smt (Term TermSort Value Model)

/-! ### What a model says of events -/

namespace Smt.Model

/-- A constant has a value of a sort. -/
def Interprets (m : Model) (name : String) (sort : TermSort) : Prop :=
  ∃ v, m.get? name = some v ∧ v.HasSort sort

/-- The value of an event. -/
def valueAt (m : Model) (id : Nat) : Value := (m.get? (Memory.valueName id)).getD (.bool false)

/-- The time of an event. -/
def clockAt (m : Model) (id : Nat) : Int :=
  match m.get? (Memory.clockName id) with
  | some (.int t) => t
  | _ => 0

end Smt.Model

namespace Memory

variable {m : Model}

theorem eval_const {name : String} {sort : TermSort} {v : Value} :
    m.eval (.const name sort) = .ok v ↔ m.get? name = some v := by
  rw [Smt.Model.eval]
  cases m.get? name with
  | none => simp
  | some u => simp

/-! ### Clocks -/

theorem get?_clockName {id : Nat} (h : m.Interprets (clockName id) .int) :
    m.get? (clockName id) = some (.int (m.clockAt id)) := by
  obtain ⟨v, hv, hs⟩ := h
  cases hs with
  | int t => rw [Smt.Model.clockAt, hv]

theorem eval_clockTerm {a : Access} (h : m.Interprets (clockName a.id) .int) :
    m.eval a.clockTerm = .ok (.int (m.clockAt a.id)) := eval_const.2 (get?_clockName h)

theorem precedes_iff {x y : Access} (hx : m.Interprets (clockName x.id) .int)
    (hy : m.Interprets (clockName y.id) .int) : Precedes m x y ↔ m.clockAt x.id < m.clockAt y.id := by
  unfold Precedes happensBefore Smt.Model.Holds
  rw [Smt.Model.eval_lt (eval_clockTerm hx) (eval_clockTerm hy)]
  simp

theorem decided_happensBefore {x y : Access} (hx : m.Interprets (clockName x.id) .int)
    (hy : m.Interprets (clockName y.id) .int) :
    m.Decided (happensBefore x.clockTerm y.clockTerm) :=
  ⟨_, Smt.Model.eval_lt (eval_clockTerm hx) (eval_clockTerm hy)⟩

section
variable {rel : Relation}

theorem nodup_find (z : Zone) (test : Event → Bool) : (rel.find z test).Nodup := rel.nodup_events.filter _

theorem two_le_length {α : Type} {l : List α} {x y : α} (hx : x ∈ l) (hy : y ∈ l) (h : x ≠ y) :
    2 ≤ l.length := by
  match l with
  | [] => simp at hx
  | [z] => exact absurd ((List.mem_singleton.1 hx).trans (List.mem_singleton.1 hy).symm) h
  | _ :: _ :: _ => simp

/-- The clocks of an atom are distinct if and only if its writes have different ones. -/
theorem holds_serialClause {atom : Zone} {t : Term} (ht : serialClause rel atom = some t)
    (h : ∀ w ∈ rel.find atom (·.isWrite), m.Interprets (clockName w.id) .int) :
    m.Holds t ↔ ∀ x ∈ rel.find atom (·.isWrite), ∀ y ∈ rel.find atom (·.isWrite), x ≠ y →
      m.clockAt x.id ≠ m.clockAt y.id := by
  unfold serialClause at ht
  split at ht
  · cases ht
  · cases ht
    rw [Smt.Model.holds_distinct (Smt.Model.evalAll_map fun w hw => eval_clockTerm (h w hw)),
      List.nodup_map_iff_inj_on (nodup_find _ _)]
    refine forall₂_congr fun x _ => forall₂_congr fun y _ => ?_
    rw [Value.int.injEq, not_imp_not]

/-- **Atoms serialise exactly the writes that have a pointer in common.** -/
theorem holds_serialClauses
    (h : ∀ atom ∈ rel.atoms, 2 ≤ (rel.find atom (·.isWrite)).length →
      ∀ w ∈ rel.find atom (·.isWrite), m.Interprets (clockName w.id) .int) :
    (∀ atom ∈ rel.atoms, ∀ t, serialClause rel atom = some t → m.Holds t) ↔
      ∀ x ∈ rel.writes, ∀ y ∈ rel.writes, x ≠ y → (∃ p, p ∈ x.zone ∧ p ∈ y.zone) →
        m.clockAt x.id ≠ m.clockAt y.id := by
  constructor
  · rintro hs x hx y hy hne ⟨p, hpx, hpy⟩
    rw [Relation.mem_writes] at hx hy
    have hp : p ∈ rel.pointers := Relation.mem_pointers.2 ⟨x, hx.1, hpx⟩
    have hatom : rel.atomOf p ∈ rel.atoms := Relation.mem_atoms.2 ⟨p, hp, rfl⟩
    have hfx : x ∈ rel.find (rel.atomOf p) (·.isWrite) :=
      Relation.mem_find.2 ⟨hx.1, (Relation.overlaps_atomOf hp hx.1).2 hpx, hx.2⟩
    have hfy : y ∈ rel.find (rel.atomOf p) (·.isWrite) :=
      Relation.mem_find.2 ⟨hy.1, (Relation.overlaps_atomOf hp hy.1).2 hpy, hy.2⟩
    have hlen := two_le_length hfx hfy hne
    have hclause : serialClause rel (rel.atomOf p) = some _ := if_neg (Nat.not_lt.2 hlen)
    exact (holds_serialClause hclause (h _ hatom hlen)).1 (hs _ hatom _ hclause) x hfx y hfy hne
  · intro hs atom hatom t ht
    have hlen : 2 ≤ (rel.find atom (·.isWrite)).length := by
      unfold serialClause at ht
      split at ht
      · cases ht
      · omega
    refine (holds_serialClause ht (h atom hatom hlen)).2 fun x hx y hy hne => ?_
    obtain ⟨p, hp, rfl⟩ := Relation.mem_atoms.1 hatom
    rw [Relation.mem_find] at hx hy
    exact hs x (Relation.mem_writes.2 ⟨hx.1, hx.2.2⟩) y (Relation.mem_writes.2 ⟨hy.1, hy.2.2⟩) hne
      ⟨p, (Relation.overlaps_atomOf hp hx.1).1 hx.2.1, (Relation.overlaps_atomOf hp hy.1).1 hy.2.1⟩

end

/-! ### Values and guards -/

namespace Recorder

/-- The sort of a recorded event. -/
def Requested (r : Recorder) (id : Nat) (sort : TermSort) : Prop := ∃ e ∈ r.events, e.id = id ∧ e.sort = sort

variable {r : Recorder}

theorem Has.requested {a : Access} (h : r.Has a) : r.Requested a.id a.sort := by
  obtain ⟨e, he, rfl⟩ := h
  exact ⟨e, he, rfl, rfl⟩

theorem Sound.requests (hs : r.Sound) (hn : r.Numbered) :
    r.relation.Requests r.Requested fun id => ∃ e ∈ r.relation.events, e.id = id where
  clock := fun e he => ⟨e, he, rfl⟩
  value := fun e he => ⟨e, (hn.mem_relation.1 he).1, rfl, rfl⟩
  guard := fun e he a ha => (hs.guard_has e (hn.mem_relation.1 he).1 a ha).requested
  payload := fun e he a ha => (hs.payload_has e (hn.mem_relation.1 he).1 a ha).requested

/-- A recorded access has one sort, so its constant has a value of that sort. -/
theorem Numbered.valued (hn : r.Numbered) {a : Access} (ha : r.Has a)
    (h : KnownValue r.Requested m.Interprets a.id) :
    m.get? (valueName a.id) = some (m.valueAt a.id) ∧ (m.valueAt a.id).HasSort a.sort := by
  obtain ⟨e, he, rfl⟩ := ha
  obtain ⟨sort, ⟨f, hf, hid, rfl⟩, v, hv, hsort⟩ := h
  obtain rfl := hn.eq_of_id_eq hf he hid
  have hat : m.valueAt f.id = v := by
    rw [Smt.Model.valueAt, hv]
    rfl
  rw [hat]
  exact ⟨hv, hsort⟩

theorem Numbered.eval_valueTerm (hn : r.Numbered) {a : Access} (ha : r.Has a)
    (h : KnownValue r.Requested m.Interprets a.id) : m.eval a.valueTerm = .ok (m.valueAt a.id) :=
  eval_const.2 (hn.valued ha h).1

section
variable (hn : r.Numbered) (hs : r.Sound) {e : Event} (he : e ∈ r.events)
include hn hs he

/-- **The terms of a guard say whether it is true.** -/
theorem eval_guardTerms (hk : e.GuardKnown r.Requested m.Interprets) :
    ∀ t ∈ e.guardTerms, m.eval t = .ok (.bool (e.enabled m.valueAt)) := by
  obtain ⟨g, hg⟩ := hk.encoded
  rw [Event.guardTerms_eq hg]
  obtain ⟨-, rfl⟩ | ⟨c, t, hc, ht, rfl⟩ := Event.guardTerm_eq_ok hg
  · simp
  · have hacc : e.guardAccesses = c.accesses := by rw [Event.guardAccesses, hc]
    have hval : ∀ a ∈ c.accesses,
        m.get? (valueName a.id) = some (m.valueAt a.id) ∧ (m.valueAt a.id).HasSort a.sort := by
      intro a ha
      rw [← hacc] at ha
      exact hn.valued (hs.guard_has e he a ha) (hk.accesses a ha)
    obtain ⟨b, hb⟩ := hs.boolean e he c hc m.valueAt fun a ha => (hval a ha).2
    have henabled : e.enabled m.valueAt = b := by simp only [Event.enabled, hc, hb, Value.isTrue]
    simpa [henabled, hb] using (c.term_gives ht hval).eval_eq

theorem decided_guardTerms (hk : e.GuardKnown r.Requested m.Interprets) :
    ∀ t ∈ e.guardTerms, m.Decided t :=
  fun t ht => ⟨_, eval_guardTerms hn hs he hk t ht⟩

theorem happens_iff (hk : e.GuardKnown r.Requested m.Interprets) :
    Happens m e ↔ e.enabled m.valueAt = true := by
  have heval := eval_guardTerms hn hs he hk
  obtain ⟨g, hg⟩ := hk.encoded
  unfold Happens
  rw [Event.guardTerms_eq hg] at heval ⊢
  obtain ⟨hc, rfl⟩ | ⟨c, t, hc, ht, rfl⟩ := Event.guardTerm_eq_ok hg
  · simp [Event.enabled, hc]
  · simp only [Option.toList_some, List.mem_singleton, forall_eq] at heval ⊢
    rw [Smt.Model.Holds, heval, Except.ok.injEq, Value.bool.injEq]

/-- What a write stores has a term, which evaluates to it. -/
theorem payload_gives (hw : e.isWrite = true) (hk : e.PayloadKnown r.Requested m.Interprets) :
    ∃ t v, e.payloadTerm = .ok (some t) ∧ e.written? m.valueAt = some v ∧ m.eval t = .ok v := by
  have hval : ∀ a ∈ e.payload.accesses,
      m.get? (valueName a.id) = some (m.valueAt a.id) ∧ (m.valueAt a.id).HasSort a.sort :=
    fun a ha => hn.valued (hs.payload_has e he a ha) (hk.accesses a ha)
  obtain ⟨p, hp⟩ := hk.encoded
  unfold Event.payloadTerm at hp ⊢
  unfold Event.written?
  cases hpay : e.payload with
  | none =>
    have hread : e.isRead = true := by simp [Access.isRead, hn.kind_eq e he, hpay, Payload.kind]
    simp [Access.isWrite, hread] at hw
  | value v =>
    simp only [hpay, Payload.accesses] at hp hval ⊢
    cases hshape : e.shape with
    | scalar ty =>
      simp only [hshape] at hp ⊢
      obtain ⟨t, ht, -⟩ := map_eq_ok.1 hp
      exact ⟨t, v.value m.valueAt, by rw [ht]; rfl, rfl, (v.term_gives ht hval).eval_eq⟩
    | array ty =>
      simp only [hshape] at hp ⊢
      obtain ⟨t, ht, -⟩ := bind_eq_ok.1 hp
      refine ⟨.constArray e.sort t, .array (v.value m.valueAt) [], by rw [ht]; rfl, rfl, ?_⟩
      rw [Smt.Model.eval]
      exact bind_eq_ok.2 ⟨_, (v.term_gives ht hval).eval_eq, rfl⟩
  | store a o v =>
    -- a store into anything but an array has no value, so the recorder has to rule that out
    obtain ⟨memory, element, rfl, hshape⟩ := hn.into_array e he a o v hpay
    simp only [hpay, Payload.accesses, List.append_assoc, List.forall_mem_append] at hp hval ⊢
    obtain ⟨hmemory, hoffset, hstored⟩ := hval
    obtain ⟨x, hx, hp⟩ := bind_eq_ok.1 hp
    obtain ⟨y, hy, hp⟩ := bind_eq_ok.1 hp
    obtain ⟨k, hk, hp⟩ := bind_eq_ok.1 hp
    obtain ⟨z, hz, -⟩ := bind_eq_ok.1 hp
    have hsort : x.sort = .ok (.arrayOf element.wordSort) := by
      cases hx
      show Except.ok memory.sort = _
      rw [Access.sort, hshape]
      rfl
    refine ⟨.store x k z, _, ?_, rfl, ?_⟩
    · exact bind_eq_ok.2 ⟨x, hx, bind_eq_ok.2 ⟨y, hy, bind_eq_ok.2 ⟨k, hk, bind_eq_ok.2 ⟨z, hz, rfl⟩⟩⟩⟩
    · exact eval_store (Instr.term_gives _ hx hmemory) hsort (eval_indexTerm (o.term_gives hy hoffset) hk)
        (v.term_gives hz hstored).eval_eq

/-- **The clause of a write says that its value is what it stores.** -/
theorem holds_storeClause (hw : e.isWrite = true) (hk : e.PayloadKnown r.Requested m.Interprets) :
    m.Holds e.storeClause ↔ e.written? m.valueAt = some (m.valueAt e.id) := by
  obtain ⟨t, v, ht, hwritten, heval⟩ := payload_gives hn hs he hw hk
  have hvalue := hn.eval_valueTerm ⟨e, he, rfl⟩ (hk.value t ht)
  rw [Event.storeClause, ht, hwritten]
  show m.Holds (.eq e.valueTerm t) ↔ _
  rw [Smt.Model.holds_eq_iff hvalue heval, Option.some.injEq, eq_comm]

end

/-! ### The axioms -/

/-- A read that other threads can see. -/
def SharedRead (r : Recorder) (e : Event) : Prop := e ∈ r.events ∧ e.addr.shared = true ∧ e.isRead = true

/-- A write that other threads can see. -/
def SharedWrite (r : Recorder) (e : Event) : Prop := e ∈ r.events ∧ e.addr.shared = true ∧ e.isWrite = true

/-- **The axioms of memory**, for the shared events of a recording in a model. -/
structure Axioms (r : Recorder) (m : Model) : Prop where
  /-- The value of a write is what it stores. -/
  stored : ∀ w, r.SharedWrite w → w.written? m.valueAt = some (m.valueAt w.id)
  /-- A read comes after the write that it sees and has its value, and both happen. -/
  seen : ∀ e w, r.SharedRead e → r.SharedWrite w → (∃ p, p ∈ w.zone ∧ p ∈ e.zone) →
    Sees m e.toAccess w.toAccess →
      m.clockAt w.id < m.clockAt e.id ∧ w.enabled m.valueAt = true ∧ e.enabled m.valueAt = true ∧
        m.valueAt w.id = m.valueAt e.id
  /-- A read that happens sees a write. -/
  source : ∀ e, r.SharedRead e → e.enabled m.valueAt = true →
    ∃ w, r.SharedWrite w ∧ (∃ p, p ∈ w.zone ∧ p ∈ e.zone) ∧ Sees m e.toAccess w.toAccess
  /-- Writes to one place are at different times. -/
  serial : ∀ x y, r.SharedWrite x → r.SharedWrite y → x ≠ y → (∃ p, p ∈ x.zone ∧ p ∈ y.zone) →
    m.clockAt x.id ≠ m.clockAt y.id
  /-- A read comes before a later write that happens and replaces what it saw. -/
  replaced : ∀ x y e, r.SharedWrite x → r.SharedWrite y → x ≠ y → r.SharedRead e →
    (∃ p, p ∈ x.zone ∧ p ∈ y.zone ∧ p ∈ e.zone) → Sees m e.toAccess x.toAccess →
      m.clockAt x.id < m.clockAt y.id → y.enabled m.valueAt = true → m.clockAt e.id < m.clockAt y.id

section
variable (hn : r.Numbered)
include hn

theorem mem_relation_reads {e : Event} : e ∈ r.relation.reads ↔ r.SharedRead e := by
  rw [Relation.mem_reads, hn.mem_relation, and_assoc, SharedRead]

theorem mem_relation_writes {e : Event} : e ∈ r.relation.writes ↔ r.SharedWrite e := by
  rw [Relation.mem_writes, hn.mem_relation, and_assoc, SharedWrite]

theorem mem_relation_find {e : Event} {z : Zone} :
    e ∈ r.relation.find z (·.isWrite) ↔ r.SharedWrite e ∧ ∃ p, p ∈ e.zone ∧ p ∈ z := by
  rw [Relation.mem_find, ← mem_relation_writes hn, Relation.mem_writes, Zone.overlaps_iff]
  exact ⟨fun ⟨he, ho, hw⟩ => ⟨⟨he, hw⟩, ho⟩, fun ⟨⟨he, hw⟩, ho⟩ => ⟨he, ho, hw⟩⟩

end

section
variable (hn : r.Numbered) (hs : r.Sound) (hk : r.relation.Known r.Requested m.Interprets)
  (hrf : ∀ e, r.SharedRead e → ∃ v, m.applyFunc readsFrom [.int e.number] = .ok v)
include hn hs hk

theorem readKnown {e : Event} (he : r.SharedRead e) : r.relation.ReadKnown r.Requested m.Interprets e :=
  hk.read e ((mem_relation_reads hn).2 he) (hs.zone e he.1)

include hrf

theorem seesClause_iff {e w : Event} (he : r.SharedRead e) (hw : w ∈ r.relation.find e.zone (·.isWrite)) :
    m.Holds (seesClause e w) ↔ (Sees m e.toAccess w.toAccess →
      m.clockAt w.id < m.clockAt e.id ∧ w.enabled m.valueAt = true ∧ e.enabled m.valueAt = true ∧
        m.valueAt w.id = m.valueAt e.id) := by
  have hread := readKnown hn hs hk he
  have hwe : w ∈ r.events := ((mem_relation_find hn).1 hw).1.1
  have hwv := hn.eval_valueTerm ⟨w, hwe, rfl⟩ (hread.write_value w hw)
  have hev := hn.eval_valueTerm ⟨e, he.1, rfl⟩ hread.value
  rw [holds_seesClause (decided_seesTerm (hrf e he) _),
    precedes_iff (hread.write_clock w hw) hread.clock, happens_iff hn hs hwe (hread.write_guard w hw),
    happens_iff hn hs he.1 hread.guard, Smt.Model.holds_eq_iff hwv hev]

theorem sourceClause_iff {e : Event} (he : r.SharedRead e) :
    m.Holds (sourceClause r.relation e) ↔ (e.enabled m.valueAt = true →
      ∃ w, r.SharedWrite w ∧ (∃ p, p ∈ w.zone ∧ p ∈ e.zone) ∧ Sees m e.toAccess w.toAccess) := by
  have hread := readKnown hn hs hk he
  rw [holds_sourceClause (decided_guardTerms hn hs he.1 hread.guard) fun w _ =>
    decided_seesTerm (hrf e he) _, happens_iff hn hs he.1 hread.guard]
  simp only [mem_relation_find hn, and_assoc]

theorem replaceClause_iff {x y e : Event} (hp : (x, y, e) ∈ allFrTriples r.relation) :
    m.Holds (replaceClause (x, y, e)) ↔ (Sees m e.toAccess x.toAccess →
      m.clockAt x.id < m.clockAt y.id → y.enabled m.valueAt = true →
        m.clockAt e.id < m.clockAt y.id) := by
  obtain ⟨hcx, hcy, hce, hgy⟩ := hk.triple _ hp
  obtain ⟨-, hy, he, -⟩ := mem_allFrTriples.1 hp
  have hye : y ∈ r.events := ((mem_relation_writes hn).1 hy).1
  rw [holds_replaceClause (decided_seesTerm (hrf e ((mem_relation_reads hn).1 he)) _)
    (decided_happensBefore hcx hcy) (decided_guardTerms hn hs hye hgy), precedes_iff hcx hcy,
    precedes_iff hce hcy, happens_iff hn hs hye hgy]

/-- **The formula of a recording says the axioms**, in a model of its symbols. -/
theorem holds_formula_iff : m.Holds (formula r.relation) ↔ r.Axioms m := by
  have hstore : ∀ w, r.SharedWrite w → w.PayloadKnown r.Requested m.Interprets :=
    fun w hw => hk.write w ((mem_relation_writes hn).2 hw)
  rw [holds_formula, holds_serialClauses hk.serial]
  constructor
  · rintro ⟨hstored, hreads, hserial, htriples⟩
    have hclauses := fun e (he : r.SharedRead e) =>
      (holds_readClauses (hs.zone e he.1)).1 (hreads e ((mem_relation_reads hn).2 he))
    refine ⟨fun w hw => ?_, fun e w he hw hp => ?_, fun e he => ?_, fun x y hx hy => ?_,
      fun x y e hx hy hne he hp => ?_⟩
    · exact (holds_storeClause hn hs hw.1 hw.2.2 (hstore w hw)).1
        (hstored w ((mem_relation_writes hn).2 hw))
    · have hfind := (mem_relation_find hn).2 ⟨hw, hp⟩
      exact (seesClause_iff hn hs hk hrf he hfind).1 ((hclauses e he).1 w hfind)
    · exact (sourceClause_iff hn hs hk hrf he).1 (hclauses e he).2
    · exact hserial x ((mem_relation_writes hn).2 hx) y ((mem_relation_writes hn).2 hy)
    · have htriple : (x, y, e) ∈ allFrTriples r.relation :=
        mem_allFrTriples.2 ⟨(mem_relation_writes hn).2 hx, (mem_relation_writes hn).2 hy,
          (mem_relation_reads hn).2 he, fun hid => hne (hn.eq_of_id_eq hy.1 hx.1 hid).symm, hp⟩
      exact (replaceClause_iff hn hs hk hrf htriple).1 (htriples _ htriple)
  · intro h
    refine ⟨fun w hw => ?_, fun e he => ?_, fun x hx y hy => ?_, fun ⟨x, y, e⟩ hp => ?_⟩
    · have hw := (mem_relation_writes hn).1 hw
      exact (holds_storeClause hn hs hw.1 hw.2.2 (hstore w hw)).2 (h.stored w hw)
    · have he := (mem_relation_reads hn).1 he
      refine (holds_readClauses (hs.zone e he.1)).2 ⟨fun w hw => ?_, ?_⟩
      · obtain ⟨hww, hp⟩ := (mem_relation_find hn).1 hw
        exact (seesClause_iff hn hs hk hrf he hw).2 (h.seen e w he hww hp)
      · exact (sourceClause_iff hn hs hk hrf he).2 (h.source e he)
    · exact h.serial x y ((mem_relation_writes hn).1 hx) ((mem_relation_writes hn).1 hy)
    · obtain ⟨hx, hy, he, hne, hz⟩ := mem_allFrTriples.1 hp
      refine (replaceClause_iff hn hs hk hrf hp).2 (h.replaced x y e ((mem_relation_writes hn).1 hx)
        ((mem_relation_writes hn).1 hy) ?_ ((mem_relation_reads hn).1 he) hz)
      rintro rfl
      exact hne rfl

end

end Recorder

/-- The bound of a clock says that it is above. -/
theorem holds_clockBound {bound : Int} {id : Nat} (h : m.Interprets (clockName id) .int) :
    m.Holds (clockBound bound id) ↔ bound < m.clockAt id := by
  rw [clockBound, Smt.Model.holds_gt, eval_const.2 (get?_clockName h)]
  constructor
  · rintro ⟨x, y, hx, hy, hlt⟩
    cases hx
    cases hy
    exact hlt
  · exact fun hlt => ⟨_, _, rfl, rfl, hlt⟩

/-- A script holds if and only if its formula does and its clocks are above the bound. -/
theorem Encoded.holds_iff {R : Nat → TermSort → Prop} {T : Nat → Prop} {bound : Int} {rel : Relation}
    {script : Smt.Script} (h : Encoded R T bound rel script) : script.holds m = .ok true ↔
      (∀ id, .const (clockName id) .int ∈ script.declarations → m.Holds (clockBound bound id)) ∧
        m.Holds (formula rel) := by
  rw [Smt.Script.holds_eq_ok_true]
  simp only [h.mem_assertions]
  constructor
  · exact fun hall => ⟨fun id hid => hall _ (.inr ⟨id, hid, rfl⟩), hall _ (.inl rfl)⟩
  · rintro ⟨hbound, hformula⟩ t (rfl | ⟨id, hid, rfl⟩)
    · exact hformula
    · exact hbound id hid

/-- A script is well-sorted in a model if values and clocks of events are. -/
theorem Encoded.interprets {r : Recorder} {bound : Int} {script : Smt.Script}
    (h : Encoded r.Requested (fun id => ∃ e ∈ r.relation.events, e.id = id) bound r.relation script)
    (hvalue : ∀ e ∈ r.events, m.Interprets (valueName e.id) e.sort)
    (hclock : ∀ e ∈ r.relation.events, m.Interprets (clockName e.id) .int) :
    ∀ name sort, .const name sort ∈ script.declarations → m.Interprets name sort := by
  intro name sort hd
  obtain ⟨id, rfl, e, he, rfl, rfl⟩ | ⟨id, rfl, rfl, e, he, rfl⟩ := h.declared name sort hd
  · exact hvalue e he
  · exact hclock e he

/-- **The script of a recording says exactly the axioms of memory.** In a model that gives its symbols
values of their sorts, and every shared read something that it sees, the script holds if and only if
all clocks are above the lower bound and the axioms hold. -/
theorem encode_holds_iff_axioms {ops : List Recorder.Op} (hops : Recorder.Proper {} ops) {c : Config}
    {script : Smt.Script} (h : encode (Recorder.after ops).relation c = .ok script) {m : Model}
    (hm : ∀ name sort, .const name sort ∈ script.declarations → m.Interprets name sort)
    (hrf : ∀ e, (Recorder.after ops).SharedRead e →
      ∃ v, m.applyFunc readsFrom [.int e.number] = .ok v) :
    script.holds m = .ok true ↔
      (∀ id, .const (clockName id) .int ∈ script.declarations → c.clockLowerBound < m.clockAt id) ∧
        (Recorder.after ops).Axioms m := by
  have hn := Recorder.numbered_after ops
  have hs := Recorder.sound_after hops
  have hscript := encode_encoded (hs.requests hn) h
  rw [hscript.holds_iff, Recorder.holds_formula_iff hn hs (hscript.known _ hm) hrf]
  refine and_congr_left fun _ => forall₂_congr fun id hid => ?_
  exact holds_clockBound (hm _ _ hid)

theorem Recorder.Has.of_accesses {r : Recorder} {x : Access} {i : Instr} (h : r.Has x)
    (hi : i.accesses = [x]) : ∀ a ∈ i.accesses, r.Has a := by
  rw [hi]
  simpa using h

/-- A write, a read that may see it, and a guarded write of what was read, which another read sees. -/
def relay : List Recorder.Op :=
  let both : Address := (Address.ofPtr 1 true).join (.ofPtr 2 true)
  let first : Instr := .seen ⟨2, .read, .scalar .int, both⟩
  [.write (.ofPtr 1 true) (.lit (.int 5)), .read .int both,
    .pushGuard (.binary .lt first (.lit (.int 9))),
    .write (.ofPtr 2 true) (.binary .add first (.lit (.int 1))), .popGuard,
    .read .int (.ofPtr 2 true)]

theorem relay_proper : Recorder.Proper {} relay := by
  refine ⟨⟨rfl, nofun⟩, rfl, ⟨.of_accesses ?_ rfl, fun ρ _ => ⟨_, rfl⟩⟩,
    ⟨rfl, .of_accesses ?_ rfl⟩, trivial, rfl, trivial⟩
  all_goals exact ⟨_, List.mem_cons_of_mem _ (List.mem_cons_self ..), rfl⟩

/-- Events in program order; each read sees the write before it. -/
def relayModel : Model where
  consts := .ofList [(clockName 1, .int 1), (clockName 2, .int 2), (clockName 3, .int 3),
    (clockName 4, .int 4), (valueName 1, .bitVec 5 32), (valueName 2, .bitVec 5 32),
    (valueName 3, .bitVec 6 32), (valueName 4, .bitVec 6 32)]
  funcs := .ofList [(readsFrom, { entries := .ofList [([.int 2], .int 1), ([.int 4], .int 3)] })]

theorem relayModel_interprets : ∀ e ∈ (Recorder.after relay).events,
    relayModel.Interprets (valueName e.id) e.sort ∧ relayModel.Interprets (clockName e.id) .int := by
  have word : ∀ {id : Nat} {v : Smt.Word}, relayModel.get? (valueName id) = some (.bitVec v 32) →
      v.lowBits 32 = v → relayModel.Interprets (valueName id) (.bitVec 32) :=
    fun h hv => ⟨_, h, .bitVec hv⟩
  have time : ∀ {id : Nat} {t : Int}, relayModel.get? (clockName id) = some (.int t) →
      relayModel.Interprets (clockName id) .int := fun h => ⟨_, h, .int _⟩
  have get : relayModel.get? (valueName 1) = some (.bitVec 5 32) ∧
      relayModel.get? (valueName 2) = some (.bitVec 5 32) ∧
      relayModel.get? (valueName 3) = some (.bitVec 6 32) ∧
      relayModel.get? (valueName 4) = some (.bitVec 6 32) ∧
      relayModel.get? (clockName 1) = some (.int 1) ∧ relayModel.get? (clockName 2) = some (.int 2) ∧
      relayModel.get? (clockName 3) = some (.int 3) ∧ relayModel.get? (clockName 4) = some (.int 4) := by
    decide +kernel
  obtain ⟨v1, v2, v3, v4, t1, t2, t3, t4⟩ := get
  refine List.forall_mem_cons.2 ⟨⟨word v1 (by decide), time t1⟩, List.forall_mem_cons.2
    ⟨⟨word v2 (by decide), time t2⟩, List.forall_mem_cons.2 ⟨⟨word v3 (by decide), time t3⟩,
      List.forall_mem_cons.2 ⟨⟨word v4 (by decide), time t4⟩, nofun⟩⟩⟩⟩

theorem relay_satisfies_axioms : Recorder.Proper {} relay ∧
    ∃ script, encode (Recorder.after relay).relation {} = .ok script ∧
      script.holds relayModel = .ok true ∧ (Recorder.after relay).Axioms relayModel := by
  have hrun : (encode (Recorder.after relay).relation {} >>= (·.holds relayModel)).toOption = some true := by
    decide +kernel
  obtain ⟨script, hs, hh⟩ := bind_eq_ok.1 (eq_ok_of_toOption hrun)
  have hn := Recorder.numbered_after relay
  have hscript := encode_encoded ((Recorder.sound_after relay_proper).requests hn) hs
  refine ⟨relay_proper, script, hs, hh, ((encode_holds_iff_axioms relay_proper hs ?_ ?_).1 hh).2⟩
  · exact hscript.interprets (fun e he => (relayModel_interprets e he).1) fun e he =>
      (relayModel_interprets e (hn.mem_relation.1 he).1).2
  · rintro e ⟨he, -, hread⟩
    revert e
    exact List.forall_mem_cons.2 ⟨nofun, List.forall_mem_cons.2 ⟨fun _ => ⟨.int 1, rfl⟩,
      List.forall_mem_cons.2 ⟨nofun, List.forall_mem_cons.2 ⟨fun _ => ⟨.int 3, rfl⟩, nofun⟩⟩⟩⟩

end Memory

end Symex
