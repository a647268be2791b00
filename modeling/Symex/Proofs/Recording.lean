import Symex.Proofs.Atoms
import Symex.Proofs.Clauses

/-!
Recordings: recorders after sequences of operations. Events are numbered in order from one, so the
relation of a recording has exactly its shared events. In a proper recording, instructions mention
recorded events only, guards are boolean and addresses have pointers; then so it is for every event.
-/

namespace Symex.Memory

/-! ### Relations of lists of events -/

/-- An event finds its place, unless it is there already. -/
theorem mem_insertEvent {e x : Event} {l : List Event} (h : ∀ f ∈ l, e.id = f.id → e = f) :
    x ∈ insertEvent e l ↔ x = e ∨ x ∈ l := by
  induction l with
  | nil => simp [insertEvent]
  | cons f l ih =>
    rw [List.forall_mem_cons] at h
    unfold insertEvent
    split
    · simp
    · split
      · next heq =>
        rw [h.1 heq]
        simp
      · rw [List.mem_cons, ih h.2, List.mem_cons]
        exact or_left_comm

namespace Relation

theorem mem_insert {rel : Relation} {e x : Event} (h : ∀ f ∈ rel.events, e.id = f.id → e = f) :
    x ∈ (rel.insert e).events ↔ x ∈ rel.events ∨ x = e ∧ e.addr.shared = true := by
  unfold insert
  split
  · next hshared =>
    rw [mem_insertEvent h]
    simp [hshared, or_comm]
  · next hlocal => simp [hlocal]

theorem mem_foldl_insert {es : List Event} {rel : Relation}
    (h : ∀ e ∈ es, ∀ f, f ∈ rel.events ∨ f ∈ es → e.id = f.id → e = f) {x : Event} :
    x ∈ (es.foldl insert rel).events ↔ x ∈ rel.events ∨ x ∈ es ∧ x.addr.shared = true := by
  induction es generalizing rel with
  | nil => simp
  | cons e es ih =>
    rw [List.forall_mem_cons] at h
    have hmem : ∀ {y}, y ∈ (rel.insert e).events ↔ y ∈ rel.events ∨ y = e ∧ e.addr.shared = true :=
      mem_insert fun f hf => h.1 f (.inl hf)
    rw [List.foldl_cons, ih, hmem]
    · constructor
      · rintro ((hx | ⟨rfl, hshared⟩) | ⟨hx, hshared⟩)
        · exact .inl hx
        · exact .inr ⟨by simp, hshared⟩
        · exact .inr ⟨List.mem_cons_of_mem _ hx, hshared⟩
      · rintro (hx | ⟨hx, hshared⟩)
        · exact .inl (.inl hx)
        · rcases List.mem_cons.1 hx with rfl | hx
          · exact .inl (.inr ⟨rfl, hshared⟩)
          · exact .inr ⟨hx, hshared⟩
    · -- what has been inserted is from before or from the list
      rintro f hf g (hg | hg)
      · rcases hmem.1 hg with hg | ⟨rfl, -⟩
        · exact h.2 f hf g (.inl hg)
        · exact h.2 f hf g (.inr List.mem_cons_self)
      · exact h.2 f hf g (.inr (List.mem_cons_of_mem _ hg))

/-- **A relation has the shared events of its list**, if these are known by their numbers. -/
theorem mem_ofEvents {es : List Event} (h : ∀ e ∈ es, ∀ f ∈ es, e.id = f.id → e = f) {x : Event} :
    x ∈ (ofEvents es).events ↔ x ∈ es ∧ x.addr.shared = true := by
  unfold ofEvents
  rw [mem_foldl_insert]
  · simp [empty]
  · rintro e he f (hf | hf)
    · cases hf
    · exact h e he f hf

end Relation

/-- A payload that sets one element does so in an array that an access sees. -/
def Payload.IntoArray (payload : Payload) : Prop :=
  ∀ m o v, payload = .store m o v → ∃ a element, m = .seen a ∧ a.shape = .array element

namespace Recorder

/-- An operation on a recorder. -/
inductive Op where
  | pushGuard (guard : Instr)
  | popGuard
  | read (ty : Ty) (addr : Address)
  | readArray (element : Ty) (addr : Address)
  | write (addr : Address) (v : Instr)
  | writeArray (addr : Address) (element : Ty) (init : Scalar)
  | writeIndirect (memory : Access) (offset v : Instr)

/-- The recorder after an operation; one that is refused changes nothing. -/
def perform (r : Recorder) : Op → Recorder
  | .pushGuard guard => r.pushGuard guard
  | .popGuard => r.popGuard.2
  | .read ty addr => (r.read ty addr).2
  | .readArray element addr => (r.readArray element addr).2
  | .write addr v => (r.write addr v).2
  | .writeArray addr element init => (r.writeArray addr element init).2
  | .writeIndirect memory offset v =>
    match r.writeIndirect memory offset v with
    | .ok (_, r) => r
    | .error _ => r

/-- The recorder after operations, one after another. -/
def performAll (r : Recorder) (ops : List Op) : Recorder := ops.foldl perform r

/-- A new recorder after operations. -/
def after (ops : List Op) : Recorder := performAll {} ops

/-- An access that has been recorded. -/
def Has (r : Recorder) (a : Access) : Prop := ∃ e ∈ r.events, e.toAccess = a

/-- An operation that mentions recorded events only, pushes a boolean guard or goes somewhere. -/
def Op.Proper (r : Recorder) : Op → Prop
  | .pushGuard guard => (∀ a ∈ guard.accesses, r.Has a) ∧ guard.IsBoolean
  | .popGuard => True
  | .read _ addr | .readArray _ addr | .writeArray addr _ _ => addr.zone.isBottom = false
  | .write addr v => addr.zone.isBottom = false ∧ ∀ a ∈ v.accesses, r.Has a
  | .writeIndirect memory offset v => r.Has memory ∧ ∀ a ∈ offset.accesses ++ v.accesses, r.Has a

/-- Operations each of which is proper when it is performed. -/
def Proper (r : Recorder) : List Op → Prop
  | [] => True
  | op :: ops => op.Proper r ∧ Proper (r.perform op) ops

section
variable {r : Recorder}

/-! ### One operation -/

/-- A recorder whose events are over pointers and mention events of its own, under boolean guards. -/
structure Sound (r : Recorder) : Prop where
  zone : ∀ e ∈ r.events, e.zone.isBottom = false
  guards : ∀ g ∈ r.guards, (∀ a ∈ g.accesses, r.Has a) ∧ g.IsBoolean
  guard_has : ∀ e ∈ r.events, ∀ a ∈ e.guardAccesses, r.Has a
  payload_has : ∀ e ∈ r.events, ∀ a ∈ e.payload.accesses, r.Has a
  boolean : ∀ e ∈ r.events, ∀ c, e.condition = some c → c.IsBoolean

/-- **What an operation does**: it opens a guard, closes guards or does nothing, or records an event. -/
theorem perform_cases (r : Recorder) (op : Op) :
    (∃ g, op = .pushGuard g ∧ r.perform op = r.pushGuard g) ∨
    ((r.perform op).events = r.events ∧ ∀ g ∈ (r.perform op).guards, g ∈ r.guards) ∨
    ∃ shape addr payload, r.perform op = (r.record shape addr payload).2 ∧ payload.IntoArray ∧
      (r.Sound → op.Proper r → addr.zone.isBottom = false ∧ ∀ a ∈ payload.accesses, r.Has a) := by
  cases op with
  | pushGuard g => exact .inl ⟨g, rfl, rfl⟩
  | popGuard => exact .inr (.inl ⟨rfl, fun g hg => (List.dropLast_sublist _).subset hg⟩)
  | read ty addr =>
    exact .inr (.inr ⟨_, _, _, rfl, by simp [Payload.IntoArray], fun _ h => ⟨h, by simp [Payload.accesses]⟩⟩)
  | readArray ty addr =>
    exact .inr (.inr ⟨_, _, _, rfl, by simp [Payload.IntoArray], fun _ h => ⟨h, by simp [Payload.accesses]⟩⟩)
  | write addr v => exact .inr (.inr ⟨_, _, _, rfl, by simp [Payload.IntoArray], fun _ h => h⟩)
  | writeArray addr ty init =>
    exact .inr (.inr ⟨_, _, _, rfl, by simp [Payload.IntoArray], fun _ h =>
      ⟨h, by simp [Payload.accesses, Instr.accesses]⟩⟩)
  | writeIndirect memory offset v =>
    cases hw : r.writeIndirect memory offset v with
    | error err =>
      refine .inr (.inl ?_)
      rw [perform, hw]
      exact ⟨rfl, fun _ h => h⟩
    | ok p =>
      obtain ⟨hp, element, hshape⟩ : p = r.record memory.shape memory.addr (.store (.seen memory) offset v) ∧
          ∃ element, memory.shape = .array element := by
        unfold writeIndirect at hw
        split at hw
        · next element _ hshape =>
          cases hw
          exact ⟨rfl, element, hshape⟩
        · cases hw
      refine .inr (.inr ⟨memory.shape, memory.addr, .store (.seen memory) offset v, ?_, ?_, fun hs h => ?_⟩)
      · rw [perform, hw, hp]
      · rintro m o u heq
        cases heq
        exact ⟨memory, element, rfl, hshape⟩
      · obtain ⟨⟨e, he, rfl⟩, hacc⟩ := h
        refine ⟨hs.zone e he, fun a ha => ?_⟩
        simp only [Payload.accesses, Instr.accesses, List.append_assoc, List.mem_append,
          List.mem_singleton] at ha
        rcases ha with rfl | ha
        · exact ⟨e, he, rfl⟩
        · exact hacc a (List.mem_append.2 ha)

/-! ### Numbers -/

/-- A recorder that has numbered its events, each of the kind of what it stores. -/
structure Numbered (r : Recorder) : Prop where
  id_pos : ∀ e ∈ r.events, 0 < e.id
  id_le : ∀ e ∈ r.events, e.id ≤ r.events.length
  ascending : r.events.Pairwise (·.id < ·.id)
  kind_eq : ∀ e ∈ r.events, e.kind = e.payload.kind
  into_array : ∀ e ∈ r.events, e.payload.IntoArray

theorem numbered_new : Numbered {} := ⟨by simp, by simp, by simp, by simp, by simp⟩

theorem Numbered.record (h : r.Numbered) (shape : Shape) (addr : Address) {payload : Payload}
    (hp : payload.IntoArray) : (r.record shape addr payload).2.Numbered := by
  have hlen : (r.record shape addr payload).2.events.length = r.events.length + 1 := by simp [Recorder.record]
  refine ⟨fun e he => ?_, fun e he => ?_, ?_, fun e he => ?_, fun e he => ?_⟩
  · rcases List.mem_append.1 he with he | he
    · exact h.id_pos e he
    · rw [List.mem_singleton.1 he]
      exact Nat.succ_pos _
  · rw [hlen]
    rcases List.mem_append.1 he with he | he
    · exact Nat.le_succ_of_le (h.id_le e he)
    · obtain rfl := List.mem_singleton.1 he
      exact Nat.le_refl _
  · refine List.pairwise_append.2 ⟨h.ascending, by simp, fun e he f hf => ?_⟩
    rw [List.mem_singleton.1 hf]
    exact Nat.lt_succ_of_le (h.id_le e he)
  · rcases List.mem_append.1 he with he | he
    · exact h.kind_eq e he
    · rw [List.mem_singleton.1 he]
  · rcases List.mem_append.1 he with he | he
    · exact h.into_array e he
    · rw [List.mem_singleton.1 he]
      exact hp

theorem Numbered.perform (h : r.Numbered) (op : Op) : (r.perform op).Numbered := by
  obtain ⟨g, -, heq⟩ | ⟨heq, -⟩ | ⟨shape, addr, payload, heq, hp, -⟩ := perform_cases r op
  · rw [heq]
    exact ⟨h.id_pos, h.id_le, h.ascending, h.kind_eq, h.into_array⟩
  · constructor <;> rw [heq]
    · exact h.id_pos
    · exact h.id_le
    · exact h.ascending
    · exact h.kind_eq
    · exact h.into_array
  · rw [heq]
    exact h.record shape addr hp

theorem numbered_after (ops : List Op) : (after ops).Numbered := by
  suffices h : ∀ r : Recorder, r.Numbered → (r.performAll ops).Numbered from h {} numbered_new
  induction ops with
  | nil => exact fun r h => h
  | cons op ops ih => exact fun r h => ih _ (h.perform op)

/-! ### Proper recordings -/

theorem sound_new : Sound {} := ⟨by simp, by simp, by simp, by simp, by simp⟩

theorem Has.mono {r' : Recorder} (h : ∀ e ∈ r.events, e ∈ r'.events) {a : Access} (ha : r.Has a) :
    r'.Has a := by
  obtain ⟨e, he, rfl⟩ := ha
  exact ⟨e, h e he, rfl⟩

/-- Open guards are boolean together, and mention what they do one by one. -/
theorem Sound.condition (h : r.Sound) {c : Instr} (hc : r.condition = some c) :
    (∀ a ∈ c.accesses, r.Has a) ∧ c.IsBoolean := by
  unfold Recorder.condition at hc
  split at hc
  · cases hc
  · next g hg =>
    cases hc
    exact h.guards c (by simp [hg])
  · next guards h0 h1 =>
    cases hc
    refine ⟨fun a ha => ?_, fun ρ _ => ?_⟩
    · rw [Instr.accesses, Instr.accessesAll_eq_flatMap] at ha
      obtain ⟨g, hg, ha⟩ := List.mem_flatMap.1 ha
      exact (h.guards g hg).1 a ha
    · match hgs : r.guards with
      | [] => exact absurd hgs h0
      | [g] => exact absurd hgs (h1 g)
      | g :: g' :: rest => exact ⟨_, rfl⟩

theorem Sound.record (h : r.Sound) {shape : Shape} {addr : Address} {payload : Payload}
    (hz : addr.zone.isBottom = false) (hp : ∀ a ∈ payload.accesses, r.Has a) :
    (r.record shape addr payload).2.Sound := by
  have hmono : ∀ {a : Access}, r.Has a → (r.record shape addr payload).2.Has a :=
    Has.mono fun e he => List.mem_append_left _ he
  refine ⟨fun e he => ?_, fun g hg => ?_, fun e he a ha => ?_, fun e he a ha => ?_, fun e he c hc => ?_⟩
  · rcases List.mem_append.1 he with he | he
    · exact h.zone e he
    · rw [List.mem_singleton.1 he]
      exact hz
  · exact ⟨fun a ha => hmono ((h.guards g hg).1 a ha), (h.guards g hg).2⟩
  · rcases List.mem_append.1 he with he | he
    · exact hmono (h.guard_has e he a ha)
    · rw [List.mem_singleton.1 he] at ha
      unfold Event.guardAccesses at ha
      split at ha
      · simp at ha
      · next c hc => exact hmono ((h.condition hc).1 a ha)
  · rcases List.mem_append.1 he with he | he
    · exact hmono (h.payload_has e he a ha)
    · rw [List.mem_singleton.1 he] at ha
      exact hmono (hp a ha)
  · rcases List.mem_append.1 he with he | he
    · exact h.boolean e he c hc
    · rw [List.mem_singleton.1 he] at hc
      exact (h.condition hc).2

theorem Sound.perform (h : r.Sound) {op : Op} (hop : op.Proper r) : (r.perform op).Sound := by
  obtain ⟨g, rfl, heq⟩ | ⟨heq, hg⟩ | ⟨shape, addr, payload, heq, -, hrec⟩ := perform_cases r op
  · rw [heq]
    refine ⟨h.zone, fun g' hg' => ?_, h.guard_has, h.payload_has, h.boolean⟩
    rcases List.mem_append.1 hg' with hg' | hg'
    · exact h.guards g' hg'
    · rw [List.mem_singleton.1 hg']
      exact hop
  · have hhas : ∀ {a : Access}, r.Has a → (r.perform op).Has a := Has.mono fun e he => heq ▸ he
    refine ⟨?_, fun g' hg' => ⟨fun a ha => ?_, ?_⟩, ?_, ?_, ?_⟩
    · rw [heq]
      exact h.zone
    · exact hhas ((h.guards g' (hg g' hg')).1 a ha)
    · exact (h.guards g' (hg g' hg')).2
    · rw [heq]
      exact fun e he a ha => hhas (h.guard_has e he a ha)
    · rw [heq]
      exact fun e he a ha => hhas (h.payload_has e he a ha)
    · rw [heq]
      exact h.boolean
  · obtain ⟨hz, hp⟩ := hrec h hop
    rw [heq]
    exact h.record hz hp

/-- **A proper recording is sound.** -/
theorem sound_after {ops : List Op} (h : Proper {} ops) : (after ops).Sound := by
  suffices hr : ∀ r : Recorder, r.Sound → r.Proper ops → (r.performAll ops).Sound from hr {} sound_new h
  clear h
  induction ops with
  | nil => exact fun r hr _ => hr
  | cons op ops ih => exact fun r hr hops => ih _ (hr.perform hops.1) hops.2

/-! ### The relation of a recording -/

theorem Numbered.eq_of_id_eq (h : r.Numbered) {e f : Event} (he : e ∈ r.events) (hf : f ∈ r.events)
    (hid : e.id = f.id) : e = f := eq_of_ascending h.ascending he hf hid

/-- **The relation of a recording has its shared events.** -/
theorem Numbered.mem_relation (h : r.Numbered) {e : Event} :
    e ∈ r.relation.events ↔ e ∈ r.events ∧ e.addr.shared = true :=
  Relation.mem_ofEvents fun _ he _ hf => h.eq_of_id_eq he hf

/-- Numbers in scripts wrap, so they are kept apart as long as all fit. -/
theorem ofNat_toInt_inj {a b : Nat} (ha : a < UInt64.size) (hb : b < UInt64.size)
    (h : (BitVec.ofNat 64 a).toInt = (BitVec.ofNat 64 b).toInt) : a = b := by
  have hbits := congrArg BitVec.toNat (BitVec.eq_of_toInt_eq h)
  rw [BitVec.toNat_ofNat, BitVec.toNat_ofNat] at hbits
  rw [UInt64.size] at ha hb
  omega

theorem Numbered.eq_of_number_eq (h : r.Numbered) (hlen : r.events.length < UInt64.size) {e f : Event}
    (he : e ∈ r.events) (hf : f ∈ r.events) (hnum : e.number = f.number) : e = f :=
  h.eq_of_id_eq he hf (ofNat_toInt_inj (Nat.lt_of_le_of_lt (h.id_le e he) hlen)
    (Nat.lt_of_le_of_lt (h.id_le f hf) hlen) hnum)

/-- Zero is the number of no event. -/
theorem Numbered.number_ne_zero (h : r.Numbered) (hlen : r.events.length < UInt64.size) {e : Event}
    (he : e ∈ r.events) : e.number ≠ 0 := by
  intro hzero
  have hid := ofNat_toInt_inj (Nat.lt_of_le_of_lt (h.id_le e he) hlen) (b := 0) (by decide) hzero
  exact Nat.ne_of_gt (h.id_pos e he) hid

end

end Recorder

end Symex.Memory
