import Symex.Proofs.MemoryAxioms

/-!
Reads see the latest write. Where every shared event is at a single pointer, a read that happens in a
model of the script sees one write: the last one before it among those that happen at its pointer. This
is so in every model in which the script holds, whatever the values and guards in it are.
-/

namespace Symex.Memory

open Smt (Term TermSort Value Model)

variable {m : Model}

/-- Whether the guard of an event is true in a model. -/
def Event.guardIn (e : Event) (m : Model) : Except Error Bool :=
  match e.condition with
  | none => .ok true
  | some c => do m.satisfies (← c.term)

/-- A guard that has a term is true if and only if the term is. -/
theorem Event.guardIn_eq_ok {e : Event} {g : Option Term} (h : e.guardTerm = .ok g) {b : Bool} :
    e.guardIn m = .ok b ↔ m.eval (e.guardTerms.headD (.bool true)) = .ok (.bool b) := by
  rw [guardTerms_eq h, guardIn]
  obtain ⟨hc, rfl⟩ | ⟨c, t, hc, ht, rfl⟩ := guardTerm_eq_ok h
  · rw [hc]
    show Except.ok true = _ ↔ Except.ok (Value.bool true) = _
    simp
  · rw [hc, ← Smt.Model.satisfies_eq_ok]
    show (c.term >>= m.satisfies) = _ ↔ _
    rw [ht]
    rfl

theorem Event.happens_iff_guardIn {e : Event} {g : Option Term} (h : e.guardTerm = .ok g) :
    Happens m e ↔ e.guardIn m = .ok true := by
  rw [guardIn_eq_ok h, ← holds_guard]
  rfl

theorem Zone.eq_of_single {a b : Zone} {p q : Nat} (ha : a.ptrs = [p]) (hb : b.ptrs = [q])
    (h : ∃ x, x ∈ a ∧ x ∈ b) : a = b := by
  obtain ⟨x, hxa, hxb⟩ := h
  rw [← Zone.mem_ptrs, ha, List.mem_singleton] at hxa
  rw [← Zone.mem_ptrs, hb, List.mem_singleton] at hxb
  cases a
  cases b
  simp_all

namespace Recorder

variable {r : Recorder}

/-- Shared events go to one pointer each. -/
def SinglePointers (r : Recorder) : Prop := ∀ e ∈ r.events, e.addr.shared = true → ∃ p, e.zone.ptrs = [p]

theorem SinglePointers.exists_mem (h : r.SinglePointers) {e : Event} (he : e ∈ r.events)
    (hs : e.addr.shared = true) : ∃ p, p ∈ e.zone := by
  obtain ⟨p, hp⟩ := h e he hs
  exact ⟨p, by simp [← Zone.mem_ptrs, hp]⟩

theorem SinglePointers.zone_eq (h : r.SinglePointers) {e f : Event} (he : e ∈ r.events)
    (hes : e.addr.shared = true) (hf : f ∈ r.events) (hfs : f.addr.shared = true)
    (ho : ∃ p, p ∈ e.zone ∧ p ∈ f.zone) : e.zone = f.zone := by
  obtain ⟨p, hp⟩ := h e he hes
  obtain ⟨q, hq⟩ := h f hf hfs
  exact Zone.eq_of_single hp hq ho

/-- **In a model, a write is the one that a read sees**: it happens before it at its pointer, both have
one value, and any other write there that happens is before the write or after the read. -/
structure Source (r : Recorder) (m : Model) (e w : Event) : Prop where
  write : r.SharedWrite w
  sees : Sees m e.toAccess w.toAccess
  zone_eq : w.zone = e.zone
  guard : w.guardIn m = .ok true
  value : ∃ v, m.get? (valueName w.id) = some v ∧ m.get? (valueName e.id) = some v
  latest : ∃ s t : Int, m.get? (clockName w.id) = some (.int s) ∧ m.get? (clockName e.id) = some (.int t) ∧
    s < t ∧ ∀ y, r.SharedWrite y → y ≠ w → y.zone = e.zone → y.guardIn m = .ok true →
      ∃ u : Int, m.get? (clockName y.id) = some (.int u) ∧ (u < s ∨ t < u)

section
variable (hn : r.Numbered) (hone : r.SinglePointers) {R : Nat → TermSort → Prop}
  {K : String → TermSort → Prop} (hk : r.relation.Known R K)
  (hclock : ∀ id, K (clockName id) .int → m.Interprets (clockName id) .int)
  (hf : m.Holds (formula r.relation))
include hn hone hk hf

theorem readClauses_hold {e : Event} (he : r.SharedRead e) :
    r.relation.ReadKnown R K e ∧
      (∀ w ∈ r.relation.find e.zone (·.isWrite), m.Holds (seesClause e w)) ∧
      m.Holds (sourceClause r.relation e) := by
  have hz : e.zone.isBottom = false := by
    obtain ⟨p, hp⟩ := hone e he.1 he.2.1
    rw [Zone.isBottom, hp]
    rfl
  have hmem := (mem_relation_reads hn).2 he
  exact ⟨hk.read e hmem hz, (holds_readClauses hz).1 ((holds_formula.1 hf).2.1 e hmem)⟩

include hclock

/-- Another write that happens at the pointer is before the write that a read sees or after the read:
it has another time than the write, and if it replaces the write, the read comes before it. -/
theorem before_or_after {e w y : Event} (he : r.SharedRead e) (hw : r.SharedWrite w)
    (hwz : w.zone = e.zone) (hsees : Sees m e.toAccess w.toAccess) (hy : r.SharedWrite y) (hne : y ≠ w)
    (hyz : y.zone = e.zone) (hyg : y.guardIn m = .ok true) :
    m.Interprets (clockName y.id) .int ∧
      (m.clockAt y.id < m.clockAt w.id ∨ m.clockAt e.id < m.clockAt y.id) := by
  obtain ⟨p, hpe⟩ := hone.exists_mem he.1 he.2.1
  have hw' := (mem_relation_writes hn).2 hw
  have hy' := (mem_relation_writes hn).2 hy
  have htriple : (w, y, e) ∈ allFrTriples r.relation :=
    mem_allFrTriples.2 ⟨hw', hy', (mem_relation_reads hn).2 he,
      fun hid => hne (hn.eq_of_id_eq hy.1 hw.1 hid), p, hwz ▸ hpe, hyz ▸ hpe, hpe⟩
  obtain ⟨hcw, hcy, hce, hgy⟩ := hk.triple _ htriple
  obtain ⟨g, hg⟩ := hgy.encoded
  obtain ⟨-, -, hserial, hreplace⟩ := holds_formula.1 hf
  refine ⟨hclock _ hcy, ?_⟩
  have hdiffer : m.clockAt w.id ≠ m.clockAt y.id :=
    (holds_serialClauses fun atom ha hlen x hx => hclock _ (hk.serial atom ha hlen x hx)).1 hserial w hw' y
      hy' hne.symm ⟨p, hwz ▸ hpe, hyz ▸ hpe⟩
  rcases Int.lt_or_gt_of_ne hdiffer with hlt | hgt
  · right
    have hwy := (precedes_iff (hclock _ hcw) (hclock _ hcy)).2 hlt
    exact (precedes_iff (hclock _ hce) (hclock _ hcy)).1
      (of_replaceClause (hreplace _ htriple) hsees hwy ((Event.happens_iff_guardIn hg).2 hyg))
  · exact .inl hgt

/-- **A write at the pointer of a read that the read sees is its source.** -/
theorem source_of_sees {e w : Event} (he : r.SharedRead e) (hw : r.SharedWrite w)
    (hwz : w.zone = e.zone) (hsees : Sees m e.toAccess w.toAccess) :
    r.Source m e w ∧ Happens m e := by
  obtain ⟨hread, hclauses, -⟩ := readClauses_hold hn hone hk hf he
  have hfind : w ∈ r.relation.find e.zone (·.isWrite) := by
    obtain ⟨p, hpe⟩ := hone.exists_mem he.1 he.2.1
    exact (mem_relation_find hn).2 ⟨hw, p, hwz ▸ hpe, hpe⟩
  obtain ⟨hbefore, hwhappens, hehappens, hvalue⟩ := of_seesClause (hclauses w hfind) hsees
  have hcw := hclock _ (hread.write_clock w hfind)
  have hce := hclock _ hread.clock
  obtain ⟨g, hg⟩ := (hread.write_guard w hfind).encoded
  refine ⟨⟨hw, hsees, hwz, (Event.happens_iff_guardIn hg).1 hwhappens, ?_, ?_⟩, hehappens⟩
  · obtain ⟨v, hwv, hev⟩ := Smt.Model.holds_eq.1 hvalue
    exact ⟨v, eval_const.1 hwv, eval_const.1 hev⟩
  · refine ⟨_, _, get?_clockName hcw, get?_clockName hce, (precedes_iff hcw hce).1 hbefore, ?_⟩
    intro y hy hne hyz hyg
    obtain ⟨hcy, horder⟩ := before_or_after hn hone hk hclock hf he hw hwz hsees hy hne hyz hyg
    exact ⟨_, get?_clockName hcy, horder⟩

/-- A read that happens has a source. -/
theorem exists_source {e : Event} (he : r.SharedRead e) (hg : Happens m e) : ∃ w, r.Source m e w := by
  obtain ⟨-, -, hsource⟩ := readClauses_hold hn hone hk hf he
  obtain ⟨w, hfind, hsees⟩ := of_sourceClause hsource hg
  obtain ⟨hw, ho⟩ := (mem_relation_find hn).1 hfind
  have hwz := hone.zone_eq hw.1 hw.2.1 he.1 he.2.1 ho
  exact ⟨w, (source_of_sees hn hone hk hclock hf he hw hwz hsees).1⟩

end

end Recorder

theorem interprets_of_clockBound {bound : Int} {id : Nat} (h : m.Holds (clockBound bound id)) :
    m.Interprets (clockName id) .int := by
  obtain ⟨x, _, hx, -⟩ := Smt.Model.holds_gt.1 h
  exact ⟨.int x, eval_const.1 hx, .int x⟩

/-- **Reads see the latest write.** Let shared events be at single pointers, and let the script of the
recording hold in a model. The guard of a shared read is true or false there. If it is true, then there
is exactly one shared write that the read sees, and that is its source. If it is false, then the read
sees no shared write at its pointer. -/
theorem holds_reads_latest_write {ops : List Recorder.Op}
    (hlen : (Recorder.after ops).events.length < UInt64.size)
    (hone : (Recorder.after ops).SinglePointers) {c : Config} {script : Smt.Script}
    (h : encode (Recorder.after ops).relation c = .ok script) {m : Model}
    (hm : script.holds m = .ok true) {e : Event} (he : (Recorder.after ops).SharedRead e) :
    (∃ b, e.guardIn m = .ok b) ∧
    (e.guardIn m = .ok true → ∃ w, (Recorder.after ops).Source m e w ∧
      ∀ w', (Recorder.after ops).SharedWrite w' → Sees m e.toAccess w'.toAccess → w' = w) ∧
    (e.guardIn m = .ok false → ∀ w, (Recorder.after ops).SharedWrite w → w.zone = e.zone →
      ¬ Sees m e.toAccess w.toAccess) := by
  have hn := Recorder.numbered_after ops
  have hscript : Encoded (fun _ _ => True) (fun _ => True) c.clockLowerBound _ script :=
    encode_encoded ⟨fun _ _ => trivial, fun _ _ => trivial, fun _ _ _ _ => trivial, fun _ _ _ _ => trivial⟩ h
  obtain ⟨hbound, hf⟩ := hscript.holds_iff.1 hm
  have hk := hscript.known (fun n t => .const n t ∈ script.declarations) fun _ _ hd => hd
  have hclock : ∀ id, .const (clockName id) .int ∈ script.declarations →
      m.Interprets (clockName id) .int := fun id hid => interprets_of_clockBound (hbound id hid)
  obtain ⟨hread, -, hsource⟩ := Recorder.readClauses_hold hn hone hk hf he
  obtain ⟨g, hg⟩ := hread.guard.encoded
  refine ⟨?_, fun htrue => ?_, fun hfalse w hw hwz hsees => ?_⟩
  · obtain ⟨b, hb⟩ := Smt.Model.decided_of_implies hsource
    exact ⟨b, (Event.guardIn_eq_ok hg).2 hb⟩
  · obtain ⟨w, hw⟩ := Recorder.exists_source hn hone hk hclock hf he ((Event.happens_iff_guardIn hg).2 htrue)
    refine ⟨w, hw, fun w' hw' hsees => ?_⟩
    exact hn.eq_of_number_eq hlen hw'.1 hw.write.1 (hsees.number_eq hw.sees)
  · have hhappens := (Recorder.source_of_sees hn hone hk hclock hf he hw hwz hsees).2
    rw [(Event.happens_iff_guardIn hg).1 hhappens] at hfalse
    cases hfalse

/-- A write, a read of it, a write under a guard that holds and one under a guard that does not, and
two reads: one with and one without a guard that holds. -/
def handover : List Recorder.Op :=
  let place : Address := .ofPtr 1 true
  let first : Instr := .seen ⟨2, .read, .scalar .int, place⟩
  [.write place (.lit (.int 5)), .read .int place, .pushGuard (.binary .lt first (.lit (.int 9))),
    .write place (.binary .add first (.lit (.int 1))), .popGuard,
    .pushGuard (.binary .lt (.lit (.int 9)) first), .write place (.lit (.int 0)), .read .int place,
    .popGuard, .read .int place]

/-- Events in program order. -/
def handoverModel : Model where
  consts := .ofList [(clockName 1, .int 1), (clockName 2, .int 2), (clockName 3, .int 3),
    (clockName 4, .int 4), (clockName 5, .int 5), (clockName 6, .int 6), (valueName 1, .bitVec 5 32),
    (valueName 2, .bitVec 5 32), (valueName 3, .bitVec 6 32), (valueName 4, .bitVec 0 32),
    (valueName 5, .bitVec 7 32), (valueName 6, .bitVec 6 32)]
  funcs := .ofList [(readsFrom,
    { entries := .ofList [([.int 2], .int 1), ([.int 5], .int 0), ([.int 6], .int 3)] })]

theorem handover_singlePointers : (Recorder.after handover).SinglePointers := by
  have hzones : ∀ e ∈ (Recorder.after handover).events, e.zone.ptrs = [1] := by
    exact List.forall_mem_cons.2 ⟨rfl, List.forall_mem_cons.2 ⟨rfl, List.forall_mem_cons.2 ⟨rfl,
      List.forall_mem_cons.2 ⟨rfl, List.forall_mem_cons.2 ⟨rfl, List.forall_mem_cons.2 ⟨rfl, nofun⟩⟩⟩⟩⟩⟩
  exact fun e he _ => ⟨1, hzones e he⟩

theorem handover_reads_latest_write :
    ∃ (script : Smt.Script) (e f : Event), encode (Recorder.after handover).relation {} = .ok script ∧
      script.holds handoverModel = .ok true ∧ e.id = 6 ∧ f.id = 5 ∧
      (∃ w, (Recorder.after handover).Source handoverModel e w ∧
        ∀ w', (Recorder.after handover).SharedWrite w' → Sees handoverModel e.toAccess w'.toAccess → w' = w) ∧
      ∀ w, (Recorder.after handover).SharedWrite w → w.zone = f.zone →
        ¬ Sees handoverModel f.toAccess w.toAccess := by
  have hrun : (encode (Recorder.after handover).relation {} >>= (·.holds handoverModel)).toOption =
      some true := by decide +kernel
  obtain ⟨script, hs, hh⟩ := bind_eq_ok.1 (eq_ok_of_toOption hrun)
  have hlen : (Recorder.after handover).events.length < UInt64.size := by decide +kernel
  have hlatest := fun e => holds_reads_latest_write (e := e) hlen handover_singlePointers hs hh
  have hevents : ∃ e f : Event, (Recorder.after handover).SharedRead e ∧
      (Recorder.after handover).SharedRead f ∧ e.id = 6 ∧ f.id = 5 ∧ (e.guardIn handoverModel).toOption = some true ∧
      (f.guardIn handoverModel).toOption = some false := by
    refine ⟨_, _, ⟨List.getElem_mem (n := 5) (by decide), rfl, rfl⟩,
      ⟨List.getElem_mem (n := 4) (by decide), rfl, rfl⟩, rfl, rfl, ?_, ?_⟩ <;> decide +kernel
  obtain ⟨e, f, he, hf, heid, hfid, heg, hfg⟩ := hevents
  exact ⟨script, e, f, hs, hh, heid, hfid, (hlatest e he).2.1 (eq_ok_of_toOption heg),
    (hlatest f hf).2.2 (eq_ok_of_toOption hfg)⟩

end Symex.Memory
