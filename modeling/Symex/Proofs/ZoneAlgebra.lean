import Symex.Proofs.Candidates

/-!
The algebra of zones and addresses. A zone is known by its pointers, so the laws of unions and
intersections are laws of joins and meets. Zones overlap just in case their meet has a pointer, and a
join overlaps what one of its parts does. An address joined with another touches what it touched before
and is shared if it was before, so a read keeps its candidates when events are recorded at wider addresses.
-/

namespace Symex.Memory

/-! ### Zones -/

namespace Zone

variable {a b x y z : Zone}

theorem join_comm (a b : Zone) : a.join b = b.join a :=
  eq_of_mem_iff fun p => by rw [mem_join, mem_join, or_comm]

theorem join_assoc (a b c : Zone) : (a.join b).join c = a.join (b.join c) :=
  eq_of_mem_iff fun p => by rw [mem_join, mem_join, mem_join, mem_join, or_assoc]

theorem join_self (a : Zone) : a.join a = a :=
  eq_of_mem_iff fun p => by rw [mem_join, or_self]

theorem meet_comm (a b : Zone) : a.meet b = b.meet a :=
  eq_of_mem_iff fun p => by rw [mem_meet, mem_meet, and_comm]

theorem meet_assoc (a b c : Zone) : (a.meet b).meet c = a.meet (b.meet c) :=
  eq_of_mem_iff fun p => by rw [mem_meet, mem_meet, mem_meet, mem_meet, and_assoc]

theorem meet_self (a : Zone) : a.meet a = a :=
  eq_of_mem_iff fun p => by rw [mem_meet, and_self]

theorem overlaps_iff_meet : a.overlaps b = true ↔ (a.meet b).isBottom = false := by
  rw [overlaps_iff, meet_isBottom_eq_false]

theorem overlaps_comm (a b : Zone) : a.overlaps b = b.overlaps a := by
  rw [Bool.eq_iff_iff, overlaps_iff_meet, overlaps_iff_meet, meet_comm]

/-- **A join overlaps what one of its parts does.** -/
theorem join_overlaps_iff : (a.join b).overlaps z = true ↔ a.overlaps z = true ∨ b.overlaps z = true := by
  simp only [overlaps_iff, mem_join, or_and_right, exists_or]

theorem overlaps_join_iff : z.overlaps (a.join b) = true ↔ z.overlaps a = true ∨ z.overlaps b = true := by
  rw [overlaps_comm, join_overlaps_iff, overlaps_comm a, overlaps_comm b]

/-- Zones that overlap still do when both are joined with others. -/
theorem overlaps_joins (h : a.overlaps b = true) : (a.join x).overlaps (b.join y) = true :=
  join_overlaps_iff.2 (.inl (overlaps_join_iff.2 (.inl h)))

end Zone

/-! ### Addresses -/

namespace Address

theorem join_comm (a b : Address) : a.join b = b.join a := by
  rw [join, join, Zone.join_comm, Bool.or_comm]

theorem join_assoc (a b c : Address) : (a.join b).join c = a.join (b.join c) := by
  simp only [join, Zone.join_assoc, Bool.or_assoc]

theorem join_self (a : Address) : a.join a = a := by
  rw [join, Zone.join_self, Bool.or_self]

theorem shared_join (a b : Address) : (a.join b).shared = true ↔ a.shared = true ∨ b.shared = true :=
  Bool.or_eq_true_iff

end Address

/-! ### Candidates -/

/-- A write that a read of a relation may see. -/
structure Relation.Candidate (rel : Relation) (w r : Event) : Prop where
  read : r ∈ rel.reads
  write : w ∈ rel.find r.zone (·.isWrite)

/-- An event whose address is joined with another. -/
def Event.joined (others : Event → Address) (e : Event) : Event := { e with addr := e.addr.join (others e) }

/-- A join finds the events that its parts find. -/
theorem Relation.mem_find_join {rel : Relation} {a b : Zone} {test : Event → Bool} {e : Event} :
    e ∈ rel.find (a.join b) test ↔ e ∈ rel.find a test ∨ e ∈ rel.find b test := by
  simp only [mem_find, Zone.overlaps_join_iff, or_and_right, and_or_left]

section
variable {es : List Event} {others : Event → Address} {w r : Event}

theorem mem_ofEvents_joined (h : ∀ e ∈ es, ∀ f ∈ es, e.id = f.id → e = f) (hr : r ∈ (Relation.ofEvents es).events) :
    r.joined others ∈ (Relation.ofEvents (es.map (Event.joined others))).events := by
  obtain ⟨hmem, hshared⟩ := (Relation.mem_ofEvents h).1 hr
  refine (Relation.mem_ofEvents ?_).2 ⟨List.mem_map_of_mem hmem, (Address.shared_join _ _).2 (.inl hshared)⟩
  rw [List.forall_mem_map]
  intro e he
  rw [List.forall_mem_map]
  intro f hf hid
  rw [h e he f hf hid]

/-- **A pair of candidates stays one at wider addresses.** -/
theorem Relation.Candidate.joined (h : ∀ e ∈ es, ∀ f ∈ es, e.id = f.id → e = f)
    (hc : (Relation.ofEvents es).Candidate w r) :
    (Relation.ofEvents (es.map (Event.joined others))).Candidate (w.joined others) (r.joined others) := by
  obtain ⟨hr, hread⟩ := Relation.mem_reads.1 hc.read
  obtain ⟨hw, hoverlaps, hwrite⟩ := Relation.mem_find.1 hc.write
  exact ⟨Relation.mem_reads.2 ⟨mem_ofEvents_joined h hr, hread⟩,
    Relation.mem_find.2 ⟨mem_ofEvents_joined h hw, Zone.overlaps_joins hoverlaps, hwrite⟩⟩

end

/-- **Joins and meets are unions and intersections.** Joining addresses is commutative, associative and
idempotent, in what they touch and in whether they are shared, and a join is shared if a part is. So is
meeting zones, and zones overlap just in case their meet is not bottom, which is if they have a common
pointer. A join overlaps a zone just in case a part does. Therefore joins find the events that their parts
find, and no candidate of a read is lost when events are recorded at wider addresses. -/
theorem Address.join_and_meet_laws (a b c : Address) (x y z : Zone) :
    (a.join b = b.join a ∧ (a.join b).join c = a.join (b.join c) ∧ a.join a = a) ∧
    ((a.join b).shared = true ↔ a.shared = true ∨ b.shared = true) ∧
    (y.overlaps z = true ↔ (y.meet z).isBottom = false) ∧
    ((y.meet z).isBottom = false ↔ ∃ p, p ∈ y ∧ p ∈ z) ∧
    (y.meet z = z.meet y ∧ (x.meet y).meet z = x.meet (y.meet z) ∧ y.meet y = y) ∧
    ((a.join b).zone.overlaps z = true ↔ a.zone.overlaps z = true ∨ b.zone.overlaps z = true) ∧
    (∀ (rel : Relation) test e,
      e ∈ rel.find (a.join b).zone test ↔ e ∈ rel.find a.zone test ∨ e ∈ rel.find b.zone test) ∧
    ∀ (ops : List Recorder.Op) (others : Event → Address) (w r : Event),
      (Recorder.after ops).relation.Candidate w r →
        (Relation.ofEvents ((Recorder.after ops).events.map (Event.joined others))).Candidate
          (w.joined others) (r.joined others) := by
  refine ⟨⟨join_comm a b, join_assoc a b c, join_self a⟩, shared_join a b, Zone.overlaps_iff_meet,
    meet_isBottom_eq_false, ⟨Zone.meet_comm y z, Zone.meet_assoc x y z, Zone.meet_self y⟩,
    Zone.join_overlaps_iff, fun rel test e => Relation.mem_find_join, fun ops others w r hc => ?_⟩
  exact hc.joined fun e he f hf => (Recorder.numbered_after ops).eq_of_id_eq he hf

/-- A write, a read of the same pointer, and one that no other thread can see. -/
def storeAndLoads : List Recorder.Op :=
  [.write (.ofPtr 1 true) (.lit (.int 5)), .read .int (.ofPtr 1 true), .read .int (.ofPtr 1 false)]

/-- The pointer after the number of an event, for its own thread. -/
def pointerAfter (e : Event) : Address := .ofPtr (e.id + 1) false

/-- The first read may see the write, also when each event may touch one more pointer. -/
theorem storeAndLoads_join_and_meet_laws :
    ∃ w r, (Recorder.after storeAndLoads).relation.Candidate w r ∧
      (Relation.ofEvents ((Recorder.after storeAndLoads).events.map (Event.joined pointerAfter))).Candidate
        (w.joined pointerAfter) (r.joined pointerAfter) ∧
      (w.joined pointerAfter).zone.ptrs = [1, 2] ∧ (r.joined pointerAfter).zone.ptrs = [1, 3] := by
  obtain ⟨-, -, -, -, -, -, -, hjoined⟩ :=
    Address.join_and_meet_laws (.ofPtr 1 true) (.ofPtr 2 false) (.ofPtr 3 false) .bottom .bottom .bottom
  have hc : (Recorder.after storeAndLoads).relation.Candidate
      ⟨⟨1, .direct, .scalar .int, .ofPtr 1 true⟩, none, .value (.lit (.int 5))⟩
      ⟨⟨2, .read, .scalar .int, .ofPtr 1 true⟩, none, .none⟩ := ⟨.head _, .head _⟩
  exact ⟨_, _, hc, hjoined storeAndLoads pointerAfter _ _ hc, rfl, rfl⟩

end Symex.Memory
