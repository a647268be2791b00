import Symex.Proofs.Calls
import Symex.Proofs.Recording
import Symex.Proofs.TermStructure

/-!
Scripts are closed. A symbol may occur at any depth of an assertion, and the events it stands for need not
be in the relation that is encoded: guards and stored values mention others. Whatever occurs in the formula
of a relation is called for on the way, and calls for one name agree if every access is of a recorded
event. So what is declared first under a name is what its occurrences are.
-/

namespace Symex

open Smt (Term TermSort Declaration)

/-- Whether a term is that a constant is above a number. -/
def Smt.Term.boundsBelow (name : String) : Term → Bool
  | .gt (.const n _) (.int _) => n == name
  | _ => false

namespace Memory

variable {ds : List Declaration}

/-! ### Values -/

theorem literal_closed (s : Scalar) : (literal s).Closed ds := by
  cases s with
  | bool b => exact Term.closed_leaf rfl trivial
  | _ => exact Term.closed_leaf rfl trivial

theorem negate_closed {t t' : Term} (h : t.Closed ds) (ht : negate t = .ok t') : t'.Closed ds := by
  obtain ⟨s, hs, ht⟩ := bind_eq_ok.1 ht
  cases s with
  | bool =>
    cases ht
    exact Term.closed_iff.2 ⟨trivial, by simpa [Term.operands] using h⟩
  | bitVec w =>
    cases ht
    have hzero : (Term.ofInt 0 w).Closed ds := Term.closed_leaf rfl trivial
    exact h.pair hzero rfl trivial
  | int => cases ht
  | array i e => cases ht

/-- An operator brings no symbols of its own. -/
theorem applyWords_closed {op : Operator} {ts : List Term} (hne : ts ≠ []) (hts : ∀ t ∈ ts, t.Closed ds)
    {t : Term} (ht : applyWords op ts = .ok t) : t.Closed ds := by
  obtain ⟨s, -, ht⟩ := bind_eq_ok.1 ht
  match ts, hne with
  | [x], _ =>
    have hx := hts x (by simp)
    by_cases hop : op = .not
    · subst hop
      exact negate_closed hx ht
    · rw [← applyAt_singleton hop ht]
      exact hx
  | x :: y :: ts, _ =>
    obtain ⟨-, -, rfl⟩ | ⟨-, -, rfl⟩ | ⟨-, -, rfl⟩ | ⟨-, rfl⟩ | ⟨-, -, rfl⟩ := applyAt_eq_ok ht
    · exact Term.closed_foldl_bvAdd (hts x (by simp)) fun u hu => hts u (List.mem_cons_of_mem _ hu)
    · exact Term.closed_conj hts
    · exact Term.closed_disj hts
    · exact Term.closed_chain fun a ha b hb => (hts a ha).pair (hts b hb) rfl trivial
    · exact Term.closed_chain fun a ha b hb => (hts a ha).pair (hts b hb) rfl trivial

theorem indexTerm_closed {t t' : Term} (h : t.Closed ds) (ht : indexTerm t = .ok t') : t'.Closed ds := by
  obtain ⟨s, -, ht⟩ := bind_eq_ok.1 ht
  cases s with
  | bool => cases ht
  | int => cases ht
  | array i e => cases ht
  | bitVec w =>
    dsimp only at ht
    split at ht
    · cases ht
      exact h
    · split at ht
      · cases ht
        exact Term.closed_iff.2 ⟨trivial, by simpa [Term.operands] using h⟩
      · cases ht

mutual
/-- The symbols in the term of an instruction are the constants of its accesses. -/
theorem Instr.term_closed (i : Instr) (h : ∀ c ∈ i.accesses.map Access.valueCall, c.declaration ∈ ds)
    {t : Term} (ht : i.term = .ok t) : t.Closed ds := by
  match i with
  | .lit s =>
    cases ht
    exact literal_closed s
  | .seen a =>
    cases ht
    exact Term.closed_leaf rfl (h a.valueCall (by simp [accesses]))
  | .unary op i =>
    obtain ⟨x, hx, ht⟩ := bind_eq_ok.1 ht
    have hi := i.term_closed h hx
    exact applyWords_closed (by simp) (by simpa using hi) ht
  | .binary op l r =>
    rw [accesses, List.map_append, List.forall_mem_append] at h
    obtain ⟨x, hx, ht⟩ := bind_eq_ok.1 ht
    obtain ⟨y, hy, ht⟩ := bind_eq_ok.1 ht
    have hl := l.term_closed h.1 hx
    have hr := r.term_closed h.2 hy
    exact applyWords_closed (by simp) (by simp [hl, hr]) ht
  | .nary op ty is =>
    unfold term at ht
    split at ht
    · cases ht
    · next hne =>
      obtain ⟨ts, hts, ht⟩ := bind_eq_ok.1 ht
      refine applyWords_closed ?_ (termAll_closed is h hts) ht
      rintro rfl
      cases is with
      | nil => exact hne rfl
      | cons i is =>
        obtain ⟨_, _, hts⟩ := bind_eq_ok.1 hts
        obtain ⟨_, _, hts⟩ := bind_eq_ok.1 hts
        cases hts
  | .deref m o =>
    rw [accesses, List.map_append, List.forall_mem_append] at h
    obtain ⟨x, hx, ht⟩ := bind_eq_ok.1 ht
    obtain ⟨y, hy, ht⟩ := bind_eq_ok.1 ht
    obtain ⟨k, hk, ht⟩ := bind_eq_ok.1 ht
    obtain ⟨e, -, ht⟩ := bind_eq_ok.1 ht
    cases ht
    have hm := m.term_closed h.1 hx
    have ho := indexTerm_closed (o.term_closed h.2 hy) hk
    exact hm.pair ho rfl trivial
theorem Instr.termAll_closed (is : List Instr)
    (h : ∀ c ∈ (Instr.accessesAll is).map Access.valueCall, c.declaration ∈ ds) {ts : List Term}
    (hts : Instr.termAll is = .ok ts) : ∀ t ∈ ts, t.Closed ds := by
  match is with
  | [] =>
    cases hts
    simp
  | i :: is =>
    rw [accessesAll, List.map_append, List.forall_mem_append] at h
    obtain ⟨t, ht, hts⟩ := bind_eq_ok.1 hts
    obtain ⟨ts', hts', hts⟩ := bind_eq_ok.1 hts
    cases hts
    rw [List.forall_mem_cons]
    exact ⟨i.term_closed h.1 ht, termAll_closed is h.2 hts'⟩
end

namespace Event

variable {e : Event}

theorem guardTerms_closed (h : ∀ c ∈ e.guardCalls, c.declaration ∈ ds) : ∀ t ∈ e.guardTerms, t.Closed ds := by
  unfold guardTerms
  split
  · next g hg =>
    obtain ⟨-, rfl⟩ | ⟨c, t, hc, ht, rfl⟩ := guardTerm_eq_ok hg
    · simp
    · rw [guardCalls, guardAccesses, hc] at h
      simpa using c.term_closed h ht
  · simp

theorem payloadTerm_closed (h : ∀ c ∈ e.payload.accesses.map Access.valueCall, c.declaration ∈ ds)
    {t : Term} (ht : e.payloadTerm = .ok (some t)) : t.Closed ds := by
  unfold payloadTerm at ht
  split at ht
  · cases ht
  · next v hp =>
    rw [hp] at h
    split at ht
    · obtain ⟨x, hx, hsome⟩ := map_eq_ok.1 ht
      cases hsome
      exact v.term_closed h hx
    · obtain ⟨x, hx, ht⟩ := bind_eq_ok.1 ht
      cases ht
      exact Term.closed_iff.2 ⟨trivial, by simpa [Term.operands] using v.term_closed h hx⟩
  · next m o v hp =>
    simp only [hp, Payload.accesses, List.map_append, List.forall_mem_append] at h
    obtain ⟨x, hx, ht⟩ := bind_eq_ok.1 ht
    obtain ⟨y, hy, ht⟩ := bind_eq_ok.1 ht
    obtain ⟨k, hk, ht⟩ := bind_eq_ok.1 ht
    obtain ⟨z, hz, ht⟩ := bind_eq_ok.1 ht
    cases ht
    have hm := m.term_closed h.1.1 hx
    have ho := indexTerm_closed (o.term_closed h.1.2 hy) hk
    have hv := v.term_closed h.2 hz
    exact Term.closed_iff.2 ⟨trivial, by simp [Term.operands, hm, ho, hv]⟩

theorem storeClause_closed (h : ∀ c ∈ e.storeCalls, c.declaration ∈ ds) : e.storeClause.Closed ds := by
  unfold storeClause
  split
  · next t ht =>
    -- something is stored, so there are calls for it
    unfold storeCalls at h
    split at h
    · next hp =>
      rw [payloadTerm, hp] at ht
      cases ht
    · rw [List.forall_mem_append, List.forall_mem_singleton] at h
      have hvalue : e.valueTerm.Closed ds := Term.closed_leaf rfl h.2
      exact hvalue.pair (payloadTerm_closed h.1 ht) rfl trivial
  · exact Term.closed_leaf rfl trivial

end Event

/-! ### Order -/

theorem readFrom_closed (w r : Nat) (h : .func readsFrom [.int] .int ∈ ds) :
    (Term.eq (eventNumber w) (.apply readsFrom [eventNumber r] .int)).Closed ds := by
  have hnumber : ∀ n, (eventNumber n).Closed ds := fun n => Term.closed_leaf rfl trivial
  have hsource : (Term.apply readsFrom [eventNumber r] .int).Closed ds := by
    refine Term.closed_iff.2 ⟨⟨[.int], rfl, h⟩, ?_⟩
    simpa [Term.operands] using hnumber r
  exact (hnumber w).pair hsource rfl trivial

theorem seesTerm_closed (w r : Access) (h : .func readsFrom [.int] .int ∈ ds) : (seesTerm w r).Closed ds :=
  readFrom_closed w.id r.id h

theorem clockTerm_closed {a : Access} (h : .const (clockName a.id) .int ∈ ds) : a.clockTerm.Closed ds :=
  Term.closed_leaf rfl h

theorem happensBefore_closed {x y : Access} (hx : .const (clockName x.id) .int ∈ ds)
    (hy : .const (clockName y.id) .int ∈ ds) : (happensBefore x.clockTerm y.clockTerm).Closed ds :=
  (clockTerm_closed hx).pair (clockTerm_closed hy) rfl trivial

theorem readClauses_closed {rel : Relation} {r : Event}
    (h : ∀ c ∈ readCalls rel r, c.declaration ∈ ds) : ∀ t ∈ readClauses rel r, t.Closed ds := by
  unfold readCalls at h
  unfold readClauses
  split
  · simp
  · next hz =>
    simp only [hz, Bool.false_eq_true, if_false, List.forall_mem_append, List.forall_mem_cons,
      List.forall_mem_flatMap, seesCalls] at h
    obtain ⟨⟨⟨hclock, hvalue, -⟩, hguard⟩, hsees⟩ := h
    have hg := Event.guardTerms_closed hguard
    have hrv : r.valueTerm.Closed ds := Term.closed_leaf rfl hvalue
    rw [List.forall_mem_append, List.forall_mem_map, List.forall_mem_singleton]
    refine ⟨fun w hw => ?_, ?_⟩
    · obtain ⟨⟨⟨hrf, hwclock, -⟩, hwguard⟩, hwvalue, -⟩ := hsees w hw
      have hwv : w.valueTerm.Closed ds := Term.closed_leaf rfl hwvalue
      refine (seesTerm_closed _ _ hrf).pair (Term.closed_conj ?_) rfl trivial
      simp only [List.forall_mem_append, List.forall_mem_singleton]
      exact ⟨⟨⟨happensBefore_closed hwclock hclock, Event.guardTerms_closed hwguard⟩, hg⟩,
        hwv.pair hrv rfl trivial⟩
    · have hpremise : (r.guardTerms.headD (.bool true)).Closed ds := by
        cases hts : r.guardTerms with
        | nil => exact Term.closed_leaf rfl trivial
        | cons t ts => exact hg t (by simp [hts])
      refine hpremise.pair (Term.closed_disj ?_) rfl trivial
      rw [List.forall_mem_map]
      intro w hw
      obtain ⟨⟨⟨hrf, -⟩, -⟩, -⟩ := hsees w hw
      exact seesTerm_closed _ _ hrf

theorem serialClause_closed {rel : Relation} {atom : Zone}
    (h : ∀ c ∈ serialCalls rel atom, c.declaration ∈ ds) {t : Term}
    (ht : serialClause rel atom = some t) : t.Closed ds := by
  unfold serialCalls at h
  unfold serialClause at ht
  split at ht
  · cases ht
  · next hlen =>
    cases ht
    rw [if_neg hlen, List.forall_mem_map] at h
    refine Term.closed_iff.2 ⟨trivial, ?_⟩
    rw [Term.operands, List.forall_mem_map]
    exact fun w hw => clockTerm_closed (h w hw)

theorem replaceClause_closed {p : Event × Event × Event}
    (h : ∀ c ∈ replaceCalls p, c.declaration ∈ ds) : (replaceClause p).Closed ds := by
  obtain ⟨x, y, r⟩ := p
  simp only [replaceCalls, List.forall_mem_append, List.forall_mem_cons] at h
  obtain ⟨⟨hx, hy, hr, hrf, -⟩, hguard⟩ := h
  refine Term.Closed.pair (Term.closed_conj ?_) (happensBefore_closed hr hy) rfl trivial
  rw [List.forall_mem_append, List.forall_mem_cons, List.forall_mem_singleton]
  exact ⟨⟨seesTerm_closed _ _ hrf, happensBefore_closed hx hy⟩, Event.guardTerms_closed hguard⟩

/-- **A relation calls for all symbols in its formula.** -/
theorem formula_closed {rel : Relation} (h : ∀ c ∈ rel.calls, c.declaration ∈ ds) :
    (formula rel).Closed ds := by
  simp only [Relation.calls, List.forall_mem_append, List.forall_mem_flatMap] at h
  obtain ⟨⟨⟨hwrites, hreads⟩, hatoms⟩, htriples⟩ := h
  refine Term.closed_conj ?_
  simp only [List.forall_mem_cons, List.not_mem_nil, false_imp_iff, implies_true, and_true]
  refine ⟨Term.closed_conj ?_, Term.closed_conj ?_, Term.closed_conj ?_, Term.closed_conj ?_⟩
  · rw [List.forall_mem_map]
    exact fun w hw => Event.storeClause_closed (hwrites w hw)
  · rw [List.forall_mem_flatten, List.forall_mem_map]
    exact fun r hr => readClauses_closed (hreads r hr)
  · intro t ht
    obtain ⟨_, hc, rfl⟩ := List.mem_filterMap.1 ht
    obtain ⟨atom, hatom, hc⟩ := List.mem_map.1 hc
    exact serialClause_closed (hatoms atom hatom) hc
  · rw [List.forall_mem_map]
    exact fun p hp => replaceClause_closed (htriples p hp)

/-! ### Scripts -/

/-- An access of an event in a relation: the event itself, or one in its guard or in what it stores. -/
def Relation.Mentions (rel : Relation) (a : Access) : Prop :=
  ∃ e ∈ rel.events, a = e.toAccess ∨ a ∈ e.guardAccesses ++ e.payload.accesses

namespace Relation

variable {rel : Relation} {e : Event} {c : Call}

theorem mentions_of_guardCalls (he : e ∈ rel.events) (hc : c ∈ e.guardCalls) :
    ∃ a, rel.Mentions a ∧ a.valueCall = c := by
  obtain ⟨a, ha, rfl⟩ := List.mem_map.1 hc
  exact ⟨a, ⟨e, he, .inr (List.mem_append_left _ ha)⟩, rfl⟩

theorem mentions_of_storeCalls (he : e ∈ rel.events) (hc : c ∈ e.storeCalls) :
    ∃ a, rel.Mentions a ∧ a.valueCall = c := by
  unfold Event.storeCalls at hc
  split at hc
  · simp at hc
  · rcases List.mem_append.1 hc with hc | hc
    · obtain ⟨a, ha, rfl⟩ := List.mem_map.1 hc
      exact ⟨a, ⟨e, he, .inr (List.mem_append_right _ ha)⟩, rfl⟩
    · exact ⟨e.toAccess, ⟨e, he, .inl rfl⟩, (List.mem_singleton.1 hc).symm⟩

/-- A relation calls for the values of accesses that it mentions. -/
theorem mentions_of_mem_calls {n : Nat} {sort : TermSort} (h : .value n sort ∈ rel.calls) :
    ∃ a, rel.Mentions a ∧ a.valueCall = .value n sort := by
  simp only [calls, List.mem_append, List.mem_flatMap] at h
  obtain ((⟨w, hw, h⟩ | ⟨r, hr, h⟩) | ⟨atom, -, h⟩) | ⟨⟨x, y, r⟩, hp, h⟩ := h
  · exact mentions_of_storeCalls (mem_writes.1 hw).1 h
  · have hr := (mem_reads.1 hr).1
    unfold readCalls at h
    split at h
    · simp at h
    · simp only [List.mem_append, List.mem_cons, List.not_mem_nil, or_false, reduceCtorEq, false_or,
        List.mem_flatMap, seesCalls] at h
      obtain (h | h) | ⟨w, hw, h | h⟩ := h
      · exact ⟨r.toAccess, ⟨r, hr, .inl rfl⟩, h.symm⟩
      · exact mentions_of_guardCalls hr h
      · exact mentions_of_guardCalls (mem_find.1 hw).1 h
      · exact ⟨w.toAccess, ⟨w, (mem_find.1 hw).1, .inl rfl⟩, h.symm⟩
  · unfold serialCalls at h
    split at h
    · simp at h
    · simp at h
  · obtain ⟨-, hy, -⟩ := mem_allFrTriples.1 hp
    simp only [replaceCalls, List.mem_append, List.mem_cons, List.not_mem_nil, or_false, reduceCtorEq,
      false_or] at h
    exact mentions_of_guardCalls (mem_writes.1 hy).1 h

end Relation

/-- If accesses with the same number have the same sort, all symbols that are called for are declared. -/
theorem declaration_mem_firstUses {cs : List Call}
    (h : ∀ id sort sort', .value id sort ∈ cs → .value id sort' ∈ cs → sort = sort') {c : Call} (hc : c ∈ cs) :
    c.declaration ∈ firstUses Declaration.name (cs.map Call.declaration) := by
  obtain ⟨d, hd, hn⟩ := exists_mem_firstUses Declaration.name (List.mem_map_of_mem hc)
  obtain ⟨c', hc', rfl⟩ := List.mem_map.1 (mem_of_mem_firstUses hd)
  have heq : c'.declaration = c.declaration := by
    refine Call.declaration_eq_of_name_eq hn ?_
    rintro id sort sort' rfl rfl
    exact h id sort sort' hc' hc
  rwa [← heq]

/-- A clock is only declared if it is called for. -/
theorem clock_mem_of_declares {script : Smt.Script} {cs : List Call}
    (h : script.declarations = firstUses Declaration.name (cs.map Call.declaration)) {n : Nat}
    (hn : script.declares (clockName n) = true) : .clock n ∈ cs := by
  simp only [Smt.Script.declares, List.any_eq_true, beq_iff_eq, h] at hn
  obtain ⟨d, hd, hname⟩ := hn
  obtain ⟨c, hc, rfl⟩ := List.mem_map.1 (mem_of_mem_firstUses hd)
  rwa [← Call.name_eq_clockName.1 hname]

theorem clockBound_closed {bound : Int} {n : Nat} (h : .const (clockName n) .int ∈ ds) :
    (clockBound bound n).Closed ds := by
  have hbound : (Term.int bound).Closed ds := Term.closed_leaf rfl trivial
  have hclock : (Term.const (clockName n) .int).Closed ds := Term.closed_leaf rfl h
  exact hclock.pair hbound rfl trivial

/-- A closed script: its names are different, every symbol in an assertion is declared with the sorts it
has there, and every clock has its lower bound, once. -/
structure ClosedScript (bound : Int) (script : Smt.Script) : Prop where
  distinct : (script.declarations.map Declaration.name).Nodup
  closed : ∀ t ∈ script.assertions, t.Closed script.declarations
  bounded : ∀ id, script.declares (clockName id) = true →
    script.assertions.filter (Term.boundsBelow (clockName id)) = [clockBound bound id]

theorem boundsBelow_clockBound (bound : Int) (n k : Nat) :
    (clockBound bound k).boundsBelow (clockName n) = (k == n) := by
  show (clockName k == clockName n) = (k == n)
  rw [Bool.eq_iff_iff, beq_iff_eq, beq_iff_eq, clockName_inj]

/-- Among bounds of different clocks there is one for each. -/
theorem filter_clockBounds (bound : Int) {ns : List Nat} (hns : ns.Nodup) {n : Nat} (hn : n ∈ ns) :
    (ns.map (clockBound bound)).filter (Term.boundsBelow (clockName n)) = [clockBound bound n] := by
  have hsame : Term.boundsBelow (clockName n) ∘ clockBound bound = (· == n) :=
    funext (boundsBelow_clockBound bound n)
  rw [List.filter_map, hsame, List.filter_beq, hns.count, if_pos hn]
  rfl

/-- The script of a relation is closed if accesses that it mentions with the same number have the same
sort. -/
theorem closedScript_of_encode {rel : Relation}
    (hrel : ∀ a b, rel.Mentions a → rel.Mentions b → a.id = b.id → a.sort = b.sort) {c : Config}
    {script : Smt.Script} (h : encode rel c = .ok script) : ClosedScript c.clockLowerBound script := by
  obtain ⟨hdecl, hassert⟩ := encode_script h
  have hsort : ∀ n s s', .value n s ∈ rel.calls → .value n s' ∈ rel.calls → s = s' := by
    intro n s s' hs hs'
    obtain ⟨a, ha, hcall⟩ := Relation.mentions_of_mem_calls hs
    obtain ⟨b, hb, hcall'⟩ := Relation.mentions_of_mem_calls hs'
    obtain ⟨rfl, rfl⟩ := Call.value.inj hcall
    obtain ⟨hid, rfl⟩ := Call.value.inj hcall'
    exact hrel a b ha hb hid.symm
  have hmem : ∀ c ∈ rel.calls, c.declaration ∈ script.declarations := by
    rw [hdecl]
    exact fun c hc => declaration_mem_firstUses hsort hc
  refine ⟨?_, fun t ht => ?_, fun n hn => ?_⟩
  · rw [hdecl]
    exact nodup_map_firstUses _ _
  · rw [hassert, List.mem_append, List.mem_map, List.mem_singleton] at ht
    obtain ⟨n, hn, rfl⟩ | rfl := ht
    · have hc := hmem (.clock n) (Call.mem_clocks.1 (mem_firstUses_id.1 hn))
      exact clockBound_closed hc
    · exact formula_closed hmem
  · have hcall : .clock n ∈ rel.calls := clock_mem_of_declares hdecl hn
    have hformula : (formula rel).boundsBelow (clockName n) = false := rfl
    rw [hassert, List.filter_append, filter_clockBounds _ (nodup_firstUses_id _), List.filter_cons_of_neg,
      List.filter_nil, List.append_nil]
    · simp [hformula]
    · exact mem_firstUses_id.2 (Call.mem_clocks.2 hcall)

/-- **Scripts are closed.** If the events of a relation are of one recorder, and their guards and what they
store mention events of that recorder only, then a script that is there is closed. -/
theorem encode_closedScript {ops : List Recorder.Op} {rel : Relation}
    (hrel : ∀ e ∈ rel.events, e ∈ (Recorder.after ops).events)
    (hown : ∀ e ∈ rel.events, ∀ a ∈ e.guardAccesses ++ e.payload.accesses, (Recorder.after ops).Has a)
    {c : Config} {script : Smt.Script} (h : encode rel c = .ok script) :
    ClosedScript c.clockLowerBound script := by
  have hhas : ∀ a, rel.Mentions a → (Recorder.after ops).Has a := by
    rintro a ⟨e, he, rfl | ha⟩
    · exact ⟨e, hrel e he, rfl⟩
    · exact hown e he a ha
  refine closedScript_of_encode (fun a b ha hb hid => ?_) h
  -- an access of a recorder is known by its number
  obtain ⟨e, he, rfl⟩ := hhas a ha
  obtain ⟨f, hf, rfl⟩ := hhas b hb
  rw [(Recorder.numbered_after ops).eq_of_id_eq he hf hid]

/-- A count and a flag that no other thread sees; the count is written elsewhere under the flag. -/
def localSources : List Recorder.Op :=
  let count : Access := ⟨1, .read, .scalar .int, .ofPtr 1 false⟩
  let flag : Access := ⟨2, .read, .scalar .bool, .ofPtr 2 false⟩
  [.read .int (.ofPtr 1 false), .read .bool (.ofPtr 2 false), .pushGuard (.seen flag),
    .write (.ofPtr 3 true) (.binary .add (.seen count) (.lit (.int 1))), .popGuard,
    .read .int (.ofPtr 3 true)]

theorem localSources_closed :
    (∀ e ∈ (Recorder.after localSources).relation.events, 2 < e.id) ∧
    ∃ script, encode (Recorder.after localSources).relation {} = .ok script ∧
      script.names = ["clk3", "clk4", "rf", "v1", "v2", "v3", "v4"] ∧ ClosedScript 0 script := by
  have hrel : ∀ e ∈ (Recorder.after localSources).relation.events,
      e ∈ (Recorder.after localSources).events :=
    fun e he => ((Recorder.numbered_after localSources).mem_relation.1 he).1
  have hown : ∀ e ∈ (Recorder.after localSources).events, ∀ a ∈ e.guardAccesses ++ e.payload.accesses,
      (Recorder.after localSources).Has a := by
    have hcount : (Recorder.after localSources).Has ⟨1, .read, .scalar .int, .ofPtr 1 false⟩ :=
      ⟨_, List.mem_cons_self, rfl⟩
    have hflag : (Recorder.after localSources).Has ⟨2, .read, .scalar .bool, .ofPtr 2 false⟩ :=
      ⟨_, List.mem_cons_of_mem _ List.mem_cons_self, rfl⟩
    refine List.forall_mem_cons.2 ⟨nofun, List.forall_mem_cons.2 ⟨nofun, List.forall_mem_cons.2
      ⟨?_, List.forall_mem_cons.2 ⟨nofun, nofun⟩⟩⟩⟩
    exact List.forall_mem_cons.2 ⟨hflag, List.forall_mem_cons.2 ⟨hcount, nofun⟩⟩
  have hrun : (encode (Recorder.after localSources).relation {}).toOption.map (·.names) =
      some ["clk3", "clk4", "rf", "v1", "v2", "v3", "v4"] := by
    decide +kernel
  obtain ⟨script, hs, hnames⟩ := Option.map_eq_some_iff.1 hrun
  have hscript := eq_ok_of_toOption hs
  exact ⟨by decide +kernel, script, hscript, hnames,
    encode_closedScript hrel (fun e he => hown e (hrel e he)) hscript⟩

end Memory

end Symex
