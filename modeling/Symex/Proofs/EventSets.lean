import Symex.Proofs.Recording

/-!
A relation is a set of events. It does not matter in which order or how often events are listed: lists
of events of one recorder that have the same shared events make the same relation, and whatever is read
off a relation or encoded from it is the same. A relation is made again from its own events.
-/

namespace Symex.Memory

namespace Relation

variable {rel rel' : Relation}

/-! ### Relations with the same events -/

theorem eq_of_events (h : rel.events = rel'.events) : rel = rel' := by
  cases rel
  cases rel'
  cases h
  rfl

/-- **Relations that have the same events are the same.** -/
theorem eq_of_mem_iff (h : ∀ e, e ∈ rel.events ↔ e ∈ rel'.events) : rel = rel' := by
  have hperm : rel.events.Perm rel'.events :=
    (List.perm_ext_iff_of_nodup rel.nodup_events rel'.nodup_events).2 h
  refine eq_of_events (hperm.eq_of_pairwise ?_ rel.ascending rel'.ascending)
  intro e f _ _ hef hfe
  exact absurd hef (Nat.lt_asymm hfe)

/-- A relation is made again from its events. -/
theorem ofEvents_events (rel : Relation) : ofEvents rel.events = rel := by
  refine eq_of_mem_iff fun e => ?_
  rw [mem_ofEvents fun e he f hf => eq_of_id_eq he hf]
  exact and_iff_left_of_imp (rel.allShared e)

/-! ### What is read off a relation -/

/-- Two relations give the same answers, and the same scripts or errors. -/
structure SameAnswers (rel rel' : Relation) : Prop where
  events : rel.events = rel'.events
  reads : rel.reads = rel'.reads
  writes : rel.writes = rel'.writes
  find : ∀ z test, rel.find z test = rel'.find z test
  partition : ∀ z, rel.partition z = rel'.partition z
  atoms : rel.atoms = rel'.atoms
  encode : ∀ c, Memory.encode rel c = Memory.encode rel' c

theorem SameAnswers.refl (rel : Relation) : rel.SameAnswers rel :=
  ⟨rfl, rfl, rfl, fun _ _ => rfl, fun _ => rfl, rfl, fun _ => rfl⟩

end Relation

namespace Recorder

variable {ops : List Op} {es es' : List Event}

theorem mem_ofEvents (hes : ∀ e ∈ es, e ∈ (after ops).events) {e : Event} :
    e ∈ (Relation.ofEvents es).events ↔ e ∈ es ∧ e.addr.shared = true :=
  Relation.mem_ofEvents fun e he f hf => (numbered_after ops).eq_of_id_eq (hes e he) (hes f hf)

theorem ofEvents_eq (hes : ∀ e ∈ es, e ∈ (after ops).events) (hes' : ∀ e ∈ es', e ∈ (after ops).events)
    (h : ∀ e, e.addr.shared = true → (e ∈ es ↔ e ∈ es')) :
    Relation.ofEvents es = Relation.ofEvents es' := by
  refine Relation.eq_of_mem_iff fun e => ?_
  rw [mem_ofEvents hes, mem_ofEvents hes']
  exact and_congr_left (h e)

/-- **A relation depends only on the set of its events.** Made from its own events, a relation is itself. From
events of a recorder in any order, and however often they are listed, it takes the shared ones, each once and
by ascending number. Lists with the same shared events give relations with the same answers. -/
theorem ofEvents_depends_on_set :
    (∀ rel : Relation, Relation.ofEvents rel.events = rel) ∧
    ∀ {ops : List Op} {es : List Event}, (∀ e ∈ es, e ∈ (after ops).events) →
      (∀ e, e ∈ (Relation.ofEvents es).events ↔ e ∈ es ∧ e.addr.shared = true) ∧
      (Relation.ofEvents es).events.Nodup ∧
      (Relation.ofEvents es).events.Pairwise (·.id < ·.id) ∧
      ∀ es', (∀ e ∈ es', e ∈ (after ops).events) →
        (∀ e, e.addr.shared = true → (e ∈ es ↔ e ∈ es')) →
        (Relation.ofEvents es).SameAnswers (Relation.ofEvents es') := by
  refine ⟨Relation.ofEvents_events, fun {ops es} hes => ?_⟩
  refine ⟨fun e => mem_ofEvents hes, Relation.nodup_events _, Relation.ascending _, ?_⟩
  intro es' hes' hsame
  rw [ofEvents_eq hes hes' hsame]
  exact .refl _

end Recorder

/-- A write, a read of it that no other thread can see, and two reads under a guard. -/
def guardedReads : List Recorder.Op :=
  let both : Address := (Address.ofPtr 1 true).join (.ofPtr 2 true)
  [.write both (.lit (.int 5)), .read .int (.ofPtr 1 false),
    .pushGuard (.binary .lt (.seen ⟨2, .read, .scalar .int, .ofPtr 1 false⟩) (.lit (.int 9))),
    .read .int (.ofPtr 2 true), .read .int both]

/-- The events of a recorder from the last to the first, and then the shared ones once more. -/
def listedTwice (r : Recorder) : List Event :=
  r.events.reverse ++ r.events.filter (·.addr.shared)

theorem guardedReads_listedTwice :
    (∀ e ∈ listedTwice (Recorder.after guardedReads), e ∈ (Recorder.after guardedReads).events) ∧
    (listedTwice (Recorder.after guardedReads)).map (·.id) = [4, 3, 2, 1, 1, 3, 4] ∧
    (Relation.ofEvents (listedTwice (Recorder.after guardedReads))).SameAnswers
      (Recorder.after guardedReads).relation := by
  have hes : ∀ e ∈ listedTwice (Recorder.after guardedReads), e ∈ (Recorder.after guardedReads).events := by
    intro e he
    simp only [listedTwice, List.mem_append, List.mem_reverse, List.mem_filter] at he
    rcases he with he | he
    · exact he
    · exact he.1
  refine ⟨hes, by decide, (Recorder.ofEvents_depends_on_set.2 hes).2.2.2 _ (fun _ he => he) ?_⟩
  intro e hshared
  simp [listedTwice, hshared]

end Symex.Memory
