import Symex.Memory.Order
import Symex.Proofs.Meaning

/-!
The clauses of a relation as terms that depend on no encoding pass, and the formula they make. Passes
hand out symbols on the way and end in this formula. Each clause that holds in a model says something
of clocks and guards there, whatever the model is; it holds if that is so and its premise has a value.
-/

namespace Symex.Memory

open Smt (Term TermSort Value Model)

/-- Name of the clock of an event. -/
def clockName (id : Nat) : String := "clk" ++ toString id

/-- The constant of an access. -/
def Access.valueTerm (a : Access) : Term := .const (valueName a.id) a.sort

/-- The clock of an access. -/
def Access.clockTerm (a : Access) : Term := .const (clockName a.id) .int

/-- That a read sees a write. -/
def seesTerm (w r : Access) : Term := .eq (eventNumber w.id) (.apply readsFrom [eventNumber r.id] .int)

/-- The accesses of what an event stores. -/
def Payload.accesses : Payload → List Access
  | .none => []
  | .value v => v.accesses
  | .store m o v => m.accesses ++ o.accesses ++ v.accesses

namespace Event

/-- The term of the guard, if there is one. -/
def guardTerm (e : Event) : Except Error (Option Term) :=
  match e.condition with
  | none => .ok none
  | some c => some <$> c.term

/-- The term of what is stored, if there is something. -/
def payloadTerm (e : Event) : Except Error (Option Term) :=
  match e.payload with
  | .none => .ok none
  | .value v =>
    match e.shape with
    | .scalar _ => some <$> v.term
    | .array _ => do return some (.constArray e.sort (← v.term))
  | .store m o v => do
    let m ← m.term
    let o ← indexTerm (← o.term)
    return some (.store m o (← v.term))

/-- The guard as a list of terms: none or one. -/
def guardTerms (e : Event) : List Term :=
  match e.guardTerm with
  | .ok g => g.toList
  | .error _ => []

theorem guardTerms_eq {e : Event} {g : Option Term} (h : e.guardTerm = .ok g) : e.guardTerms = g.toList := by
  rw [guardTerms, h]

/-- An event without a guard has no term for it, one with a guard has the term of it. -/
theorem guardTerm_eq_ok {e : Event} {g : Option Term} (h : e.guardTerm = .ok g) :
    (e.condition = none ∧ g = none) ∨ ∃ c t, e.condition = some c ∧ c.term = .ok t ∧ g = some t := by
  unfold guardTerm at h
  split at h
  · next hc =>
    cases h
    exact .inl ⟨hc, rfl⟩
  · next c hc =>
    obtain ⟨t, ht, rfl⟩ := map_eq_ok.1 h
    exact .inr ⟨c, t, hc, ht, rfl⟩

/-- The accesses in the guard. -/
def guardAccesses (e : Event) : List Access :=
  match e.condition with
  | none => []
  | some c => c.accesses

theorem enabled_congr {e : Event} {ρ ρ' : Nat → Value} (h : ∀ a ∈ e.guardAccesses, ρ a.id = ρ' a.id) :
    e.enabled ρ = e.enabled ρ' := by
  unfold enabled
  unfold guardAccesses at h
  split
  · rfl
  · next c hc =>
    rw [hc] at h
    rw [c.value_congr h]

theorem written?_congr {e : Event} {ρ ρ' : Nat → Value} (h : ∀ a ∈ e.payload.accesses, ρ a.id = ρ' a.id) :
    e.written? ρ = e.written? ρ' := by
  unfold written?
  split
  · rfl
  · next v hp =>
    rw [hp] at h
    rw [v.value_congr h]
  · next m o v hp =>
    simp only [hp, Payload.accesses, List.append_assoc, List.forall_mem_append] at h
    rw [m.value_congr h.1, o.value_congr h.2.1, v.value_congr h.2.2]

/-- That the value of a write is what it stores. -/
def storeClause (e : Event) : Term :=
  match e.payloadTerm with
  | .ok (some t) => .eq e.valueTerm t
  | _ => .bool true

end Event

/-- What follows if a read sees a write. -/
def seesClause (r w : Event) : Term :=
  .implies (seesTerm w.toAccess r.toAccess)
    (.conj ([happensBefore w.clockTerm r.clockTerm] ++ w.guardTerms ++ r.guardTerms ++
      [.eq w.valueTerm r.valueTerm]))

/-- That a read which happens sees one of the writes that overlap it. -/
def sourceClause (rel : Relation) (r : Event) : Term :=
  .implies (r.guardTerms.headD (.bool true))
    (.disj ((rel.find r.zone (·.isWrite)).map fun w => seesTerm w.toAccess r.toAccess))

def readClauses (rel : Relation) (r : Event) : List Term :=
  if r.zone.isBottom then []
  else (rel.find r.zone (·.isWrite)).map (seesClause r) ++ [sourceClause rel r]

/-- That the writes of an atom have distinct clocks, if there are at least two. -/
def serialClause (rel : Relation) (atom : Zone) : Option Term :=
  if (rel.find atom (·.isWrite)).length < 2 then none
  else some (.distinct ((rel.find atom (·.isWrite)).map fun w => w.clockTerm))

/-- That a read comes before a write which replaces what it saw. -/
def replaceClause : Event × Event × Event → Term
  | (x, y, r) =>
    .implies
      (.conj ([seesTerm x.toAccess r.toAccess, happensBefore x.clockTerm y.clockTerm] ++ y.guardTerms))
      (happensBefore r.clockTerm y.clockTerm)

/-- The formula of a relation. -/
def formula (rel : Relation) : Term :=
  .conj [.conj (rel.writes.map Event.storeClause), .conj (rel.reads.map (readClauses rel)).flatten,
    .conj ((rel.atoms.map (serialClause rel)).filterMap id), .conj ((allFrTriples rel).map replaceClause)]

/-! ### What clauses say -/

/-- The number of an access in scripts. -/
def Access.number (a : Access) : Int := (BitVec.ofNat 64 a.id).toInt

/-- In a model, a read sees a write. -/
def Sees (m : Model) (r w : Access) : Prop := m.applyFunc readsFrom [.int r.number] = .ok (.int w.number)

/-- A read sees one number only. -/
theorem Sees.number_eq {m : Model} {r w w' : Access} (h : Sees m r w) (h' : Sees m r w') :
    w.number = w'.number := Value.int.inj (Except.ok.inj (h.symm.trans h'))

/-- In a model, an access comes before another. -/
def Precedes (m : Model) (x y : Access) : Prop := m.Holds (happensBefore x.clockTerm y.clockTerm)

/-- In a model, the guard of an event is true. -/
def Happens (m : Model) (e : Event) : Prop := ∀ t ∈ e.guardTerms, m.Holds t

section
variable {m : Model} {rel : Relation}

theorem holds_seesTerm {w r : Access} : m.Holds (seesTerm w r) ↔ Sees m r w := by
  rw [seesTerm, Smt.Model.holds_eq]
  constructor
  · rintro ⟨v, hw, hr⟩
    cases hw
    exact hr
  · exact fun h => ⟨_, rfl, h⟩

theorem decided_seesTerm {r : Access} (h : ∃ v, m.applyFunc readsFrom [.int r.number] = .ok v)
    (w : Access) : m.Decided (seesTerm w r) := by
  obtain ⟨v, hv⟩ := h
  exact ⟨_, Smt.Model.eval_eq rfl hv⟩

theorem decided_guard {e : Event} (h : ∀ t ∈ e.guardTerms, m.Decided t) :
    m.Decided (e.guardTerms.headD (.bool true)) := by
  cases hg : e.guardTerms with
  | nil => exact ⟨true, rfl⟩
  | cons t ts => exact h t (by simp [hg])

/-- A guard is one term at most. -/
theorem holds_guard {e : Event} : m.Holds (e.guardTerms.headD (.bool true)) ↔ Happens m e := by
  unfold Happens Event.guardTerms
  split
  · next g _ =>
    cases g with
    | none => exact ⟨fun _ => by simp, fun _ => rfl⟩
    | some t => simp
  · exact ⟨fun _ => by simp, fun _ => rfl⟩

theorem holds_sees_effects {r w : Event} :
    m.Holds (.conj ([happensBefore w.clockTerm r.clockTerm] ++ w.guardTerms ++ r.guardTerms ++
      [.eq w.valueTerm r.valueTerm])) ↔
    Precedes m w.toAccess r.toAccess ∧ Happens m w ∧ Happens m r ∧
      m.Holds (.eq w.valueTerm r.valueTerm) := by
  rw [Smt.Model.holds_conj]
  simp only [List.forall_mem_append, List.forall_mem_singleton, and_assoc, Precedes, Happens]

theorem of_seesClause {r w : Event} (h : m.Holds (seesClause r w)) (hs : Sees m r.toAccess w.toAccess) :
    Precedes m w.toAccess r.toAccess ∧ Happens m w ∧ Happens m r ∧
      m.Holds (.eq w.valueTerm r.valueTerm) :=
  holds_sees_effects.1 (h.mp (holds_seesTerm.2 hs))

theorem holds_seesClause {r w : Event} (hd : m.Decided (seesTerm w.toAccess r.toAccess)) :
    m.Holds (seesClause r w) ↔ (Sees m r.toAccess w.toAccess →
      Precedes m w.toAccess r.toAccess ∧ Happens m w ∧ Happens m r ∧
        m.Holds (.eq w.valueTerm r.valueTerm)) := by
  rw [seesClause, Smt.Model.holds_implies hd, holds_seesTerm, holds_sees_effects]

theorem of_sourceClause {r : Event} (h : m.Holds (sourceClause rel r)) (hr : Happens m r) :
    ∃ w ∈ rel.find r.zone (·.isWrite), Sees m r.toAccess w.toAccess := by
  obtain ⟨t, ht, hh⟩ := Smt.Model.exists_holds_of_disj (h.mp (holds_guard.2 hr))
  obtain ⟨w, hw, rfl⟩ := List.mem_map.1 ht
  exact ⟨w, hw, holds_seesTerm.1 hh⟩

theorem holds_sourceClause {r : Event} (hg : ∀ t ∈ r.guardTerms, m.Decided t)
    (hd : ∀ w ∈ rel.find r.zone (·.isWrite), m.Decided (seesTerm w.toAccess r.toAccess)) :
    m.Holds (sourceClause rel r) ↔
      (Happens m r → ∃ w ∈ rel.find r.zone (·.isWrite), Sees m r.toAccess w.toAccess) := by
  refine ⟨of_sourceClause, fun h => (Smt.Model.holds_implies (decided_guard hg)).2 fun hr => ?_⟩
  obtain ⟨w, hw, hs⟩ := h (holds_guard.1 hr)
  refine (Smt.Model.holds_disj fun t ht => ?_).2 ⟨_, List.mem_map_of_mem hw, holds_seesTerm.2 hs⟩
  obtain ⟨w', hw', rfl⟩ := List.mem_map.1 ht
  exact hd w' hw'

theorem holds_readClauses {r : Event} (hz : r.zone.isBottom = false) :
    (∀ t ∈ readClauses rel r, m.Holds t) ↔
      (∀ w ∈ rel.find r.zone (·.isWrite), m.Holds (seesClause r w)) ∧ m.Holds (sourceClause rel r) := by
  rw [readClauses, if_neg (by simp [hz]), List.forall_mem_append, List.forall_mem_singleton,
    List.forall_mem_map]

theorem holds_replace_premise {x y r : Event} :
    m.Holds (.conj ([seesTerm x.toAccess r.toAccess, happensBefore x.clockTerm y.clockTerm] ++
      y.guardTerms)) ↔
    Sees m r.toAccess x.toAccess ∧ Precedes m x.toAccess y.toAccess ∧ Happens m y := by
  rw [Smt.Model.holds_conj]
  simp only [List.forall_mem_append, List.forall_mem_cons, List.not_mem_nil, false_imp_iff,
    implies_true, and_true, holds_seesTerm, and_assoc, Precedes, Happens]

theorem of_replaceClause {x y r : Event} (h : m.Holds (replaceClause (x, y, r)))
    (hs : Sees m r.toAccess x.toAccess) (hxy : Precedes m x.toAccess y.toAccess) (hy : Happens m y) :
    Precedes m r.toAccess y.toAccess :=
  h.mp (holds_replace_premise.2 ⟨hs, hxy, hy⟩)

theorem holds_replaceClause {x y r : Event} (hs : m.Decided (seesTerm x.toAccess r.toAccess))
    (hxy : m.Decided (happensBefore x.clockTerm y.clockTerm)) (hy : ∀ t ∈ y.guardTerms, m.Decided t) :
    m.Holds (replaceClause (x, y, r)) ↔
      (Sees m r.toAccess x.toAccess → Precedes m x.toAccess y.toAccess → Happens m y →
        Precedes m r.toAccess y.toAccess) := by
  have hd : m.Decided (.conj ([seesTerm x.toAccess r.toAccess, happensBefore x.clockTerm y.clockTerm] ++
      y.guardTerms)) := by
    refine Smt.Model.decided_conj ?_
    simp only [List.forall_mem_append, List.forall_mem_cons, List.not_mem_nil, false_imp_iff,
      implies_true, and_true]
    exact ⟨⟨hs, hxy⟩, hy⟩
  rw [replaceClause, Smt.Model.holds_implies hd, holds_replace_premise, and_imp, and_imp]
  rfl

/-- **The formula holds if and only if every clause does.** -/
theorem holds_formula : m.Holds (formula rel) ↔
    (∀ w ∈ rel.writes, m.Holds w.storeClause) ∧
    (∀ r ∈ rel.reads, ∀ t ∈ readClauses rel r, m.Holds t) ∧
    (∀ atom ∈ rel.atoms, ∀ t, serialClause rel atom = some t → m.Holds t) ∧
    ∀ p ∈ allFrTriples rel, m.Holds (replaceClause p) := by
  rw [formula, Smt.Model.holds_conj]
  simp only [List.forall_mem_cons, List.not_mem_nil, false_imp_iff, implies_true, and_true,
    Smt.Model.holds_conj, List.mem_flatten, List.mem_filterMap, List.mem_map, id]
  grind

end

end Symex.Memory
