import Symex.Proofs.AtomPartition
import Symex.Proofs.ClosedScripts

/-!
Candidates of reads. A read may see the writes that it has a pointer in common with. What a read sees is
said in two places of a script: the clauses of reads look for writes by zone, and the clauses of what
replaces them go through the atoms. Both come to the same pairs. So a script says of a read and a write
that one sees the other just in case their zones meet, and it says so of nothing else.
-/

namespace Symex

open Smt (Term TermSort Declaration)

namespace Smt

theorem Term.occurs_conj {u t : Term} {ts : List Term} (ht : t ∈ ts) (hu : Occurs u t) :
    Occurs u (conj ts) := by
  unfold conj
  split
  · obtain rfl := List.mem_singleton.1 ht
    exact hu
  · exact .operand ht hu

/-- A term occurs in an assertion. -/
def Script.Contains (s : Script) (t : Term) : Prop := ∃ a ∈ s.assertions, Term.Occurs t a

end Smt

namespace Memory

/-! ### Terms that name a source -/

/-- A term names the source of a read if it applies the function from reads to writes. -/
def NamesSource (t : Term) : Prop := ∃ args s, .apply readsFrom args s ∈ t.operands

/-- In a term, sources are named in certain terms only. The term is not itself an application, which a
term around it would name. -/
structure SourcesIn (allowed : Term → Prop) (t : Term) : Prop where
  not_apply : ∀ args s, t ≠ .apply readsFrom args s
  allowed : ∀ u, Term.Occurs u t → NamesSource u → allowed u

namespace SourcesIn

variable {allowed : Term → Prop} {t : Term} {ts : List Term}

theorem of_operands (ht : ∀ args s, t ≠ .apply readsFrom args s)
    (h : ∀ v ∈ t.operands, SourcesIn allowed v) : SourcesIn allowed t := by
  refine ⟨ht, fun u hu hsource => ?_⟩
  cases hu with
  | self =>
    obtain ⟨args, s, hmem⟩ := hsource
    exact absurd rfl ((h _ hmem).not_apply args s)
  | operand hv hu => exact (h _ hv).allowed u hu hsource

theorem pair {a b : Term} (ha : SourcesIn allowed a) (hb : SourcesIn allowed b) (hops : t.operands = [a, b])
    (ht : ∀ args s, t ≠ .apply readsFrom args s) : SourcesIn allowed t := by
  refine of_operands ht ?_
  rw [hops]
  simp [ha, hb]

theorem conj (h : ∀ t ∈ ts, SourcesIn allowed t) : SourcesIn allowed (.conj ts) := by
  unfold Term.conj
  split
  · exact h _ (by simp)
  · exact of_operands nofun h

theorem disj (h : ∀ t ∈ ts, SourcesIn allowed t) : SourcesIn allowed (.disj ts) := by
  unfold Term.disj
  split
  · exact h _ (by simp)
  · exact of_operands nofun h

/-- A term that is closed without the function names no sources. -/
theorem of_closed {ds : List Declaration} (h : t.Closed ds) (hds : ∀ d ∈ ds, d.name ≠ readsFrom) :
    SourcesIn allowed t := by
  have hnone : ∀ args s, ¬ Term.Occurs (.apply readsFrom args s) t := by
    intro args s ho
    obtain ⟨sorts, -, hmem⟩ := h _ ho
    exact hds _ hmem rfl
  refine ⟨?_, fun u hu ⟨args, s, hmem⟩ => ?_⟩
  · rintro args s rfl
    exact hnone args s .self
  · refine absurd ?_ (hnone args s)
    clear h hnone
    induction hu with
    | self => exact .operand hmem .self
    | operand hv _ ih => exact .operand hv ih

end SourcesIn

/-! ### Clauses -/

section
variable {allowed : Term → Prop}

theorem valueCalls_name {l : List Access} :
    ∀ d ∈ (l.map Access.valueCall).map Call.declaration, d.name ≠ readsFrom := by
  rw [List.forall_mem_map, List.forall_mem_map]
  exact fun a _ => valueName_ne_readsFrom a.id

theorem clockCalls_name {l : List Event} :
    ∀ d ∈ (l.map fun w => Call.clock w.id).map Call.declaration, d.name ≠ readsFrom := by
  rw [List.forall_mem_map, List.forall_mem_map]
  exact fun w _ => clockName_ne_readsFrom w.id

theorem guardTerms_sources (e : Event) : ∀ t ∈ e.guardTerms, SourcesIn allowed t := fun t ht =>
  .of_closed (Event.guardTerms_closed (fun _ hc => List.mem_map_of_mem hc) t ht) valueCalls_name

theorem storeClause_sources (e : Event) : SourcesIn allowed e.storeClause := by
  refine .of_closed (Event.storeClause_closed fun _ hc => List.mem_map_of_mem hc) ?_
  unfold Event.storeCalls
  split
  · simp
  · rw [List.map_append, List.forall_mem_append]
    exact ⟨valueCalls_name, valueCalls_name (l := [e.toAccess])⟩

theorem serialClause_sources {rel : Relation} {atom : Zone} {t : Term}
    (ht : serialClause rel atom = some t) : SourcesIn allowed t := by
  refine .of_closed (serialClause_closed (fun _ hc => List.mem_map_of_mem hc) ht) ?_
  unfold serialCalls
  split
  · simp
  · exact clockCalls_name

theorem clockBound_sources (bound : Int) (id : Nat) : SourcesIn allowed (clockBound bound id) := by
  refine .of_closed (clockBound_closed (List.mem_singleton_self _)) ?_
  rw [List.forall_mem_singleton]
  exact clockName_ne_readsFrom id

theorem happensBefore_sources (x y : Access) :
    SourcesIn allowed (happensBefore x.clockTerm y.clockTerm) := by
  have hclock : ∀ a : Access, SourcesIn allowed a.clockTerm := fun a => .of_operands nofun nofun
  exact (hclock x).pair (hclock y) rfl nofun

/-- The only source that is named by an atom is in the atom itself. -/
theorem seesTerm_sources {w r : Access} (h : allowed (seesTerm w r)) : SourcesIn allowed (seesTerm w r) := by
  have hnumber : ∀ n, SourcesIn allowed (eventNumber n) := fun n => .of_operands nofun nofun
  refine ⟨nofun, fun u hu hsource => ?_⟩
  cases hu with
  | self => exact h
  | operand hv hu =>
    simp only [seesTerm, Term.operands, List.mem_cons, List.not_mem_nil, or_false] at hv
    rcases hv with rfl | rfl
    · exact (hnumber _).allowed u hu hsource
    · cases hu with
      | self =>
        obtain ⟨args, s, hmem⟩ := hsource
        cases List.mem_singleton.1 hmem
      | operand hv hu =>
        obtain rfl := List.mem_singleton.1 hv
        exact (hnumber _).allowed u hu hsource

end

/-- That a read of a relation sees a write of it that it has a pointer in common with. -/
def CandidateAtom (rel : Relation) (t : Term) : Prop :=
  ∃ r ∈ rel.reads, ∃ w ∈ rel.writes, (w.zone.meet r.zone).isBottom = false ∧
    t = seesTerm w.toAccess r.toAccess

theorem meet_isBottom_eq_false {a b : Zone} : (a.meet b).isBottom = false ↔ ∃ p, p ∈ a ∧ p ∈ b := by
  rw [Zone.isBottom_eq_false_iff]
  simp only [Zone.mem_meet]

section
variable {rel : Relation} {r w : Event}

theorem candidateAtom (hr : r ∈ rel.reads) (hw : w ∈ rel.writes) (hz : ∃ p, p ∈ w.zone ∧ p ∈ r.zone) :
    SourcesIn (CandidateAtom rel) (seesTerm w.toAccess r.toAccess) :=
  seesTerm_sources ⟨r, hr, w, hw, meet_isBottom_eq_false.2 hz, rfl⟩

/-- Writes that are found by the zone of a read have a pointer in common with it. -/
theorem candidateAtom_of_find (hr : r ∈ rel.reads) (hw : w ∈ rel.find r.zone (·.isWrite)) :
    SourcesIn (CandidateAtom rel) (seesTerm w.toAccess r.toAccess) := by
  obtain ⟨hmem, hoverlap, hwrite⟩ := Relation.mem_find.1 hw
  exact candidateAtom hr (Relation.mem_writes.2 ⟨hmem, hwrite⟩) (Zone.overlaps_iff.1 hoverlap)

theorem seesClause_sources (hr : r ∈ rel.reads) (hw : w ∈ rel.find r.zone (·.isWrite)) :
    SourcesIn (CandidateAtom rel) (seesClause r w) := by
  refine (candidateAtom_of_find hr hw).pair (.conj ?_) rfl nofun
  have hvalues : SourcesIn (CandidateAtom rel) (.eq w.valueTerm r.valueTerm) := by
    have hvalue : ∀ a : Access, SourcesIn (CandidateAtom rel) a.valueTerm := fun a =>
      .of_operands nofun nofun
    exact (hvalue _).pair (hvalue _) rfl nofun
  simp only [List.forall_mem_append, List.forall_mem_singleton]
  exact ⟨⟨⟨happensBefore_sources _ _, guardTerms_sources w⟩, guardTerms_sources r⟩, hvalues⟩

theorem sourceClause_sources (hr : r ∈ rel.reads) : SourcesIn (CandidateAtom rel) (sourceClause rel r) := by
  have hpremise : SourcesIn (CandidateAtom rel) (r.guardTerms.headD (.bool true)) := by
    cases hts : r.guardTerms with
    | nil => exact .of_operands nofun nofun
    | cons t ts => exact guardTerms_sources r t (by simp [hts])
  refine hpremise.pair (.disj ?_) rfl nofun
  rw [List.forall_mem_map]
  exact fun w hw => candidateAtom_of_find hr hw

theorem readClauses_sources (hr : r ∈ rel.reads) :
    ∀ t ∈ readClauses rel r, SourcesIn (CandidateAtom rel) t := by
  unfold readClauses
  split
  · simp
  · rw [List.forall_mem_append, List.forall_mem_map, List.forall_mem_singleton]
    exact ⟨fun w hw => seesClause_sources hr hw, sourceClause_sources hr⟩

/-- A triple comes from an atom, which all three events touch. -/
theorem replaceClause_sources {x y : Event} (hp : (x, y, r) ∈ allFrTriples rel) :
    SourcesIn (CandidateAtom rel) (replaceClause (x, y, r)) := by
  obtain ⟨hx, hy, hr, -, p, hpx, -, hpr⟩ := mem_allFrTriples.1 hp
  refine SourcesIn.pair (.conj ?_) (happensBefore_sources _ _) rfl nofun
  rw [List.forall_mem_append, List.forall_mem_cons, List.forall_mem_singleton]
  exact ⟨⟨candidateAtom hr hx ⟨p, hpx, hpr⟩, happensBefore_sources _ _⟩, guardTerms_sources y⟩

/-! ### Scripts -/

/-- **Only candidates are named in the formula of a relation.** -/
theorem formula_sources (rel : Relation) : SourcesIn (CandidateAtom rel) (formula rel) := by
  refine .conj ?_
  simp only [List.forall_mem_cons, List.not_mem_nil, false_imp_iff, implies_true, and_true]
  refine ⟨.conj ?_, .conj ?_, .conj ?_, .conj ?_⟩
  · rw [List.forall_mem_map]
    exact fun w _ => storeClause_sources w
  · rw [List.forall_mem_flatten, List.forall_mem_map]
    exact fun r hr => readClauses_sources hr
  · intro t ht
    obtain ⟨_, hc, rfl⟩ := List.mem_filterMap.1 ht
    obtain ⟨atom, -, hc⟩ := List.mem_map.1 hc
    exact serialClause_sources hc
  · rw [List.forall_mem_map]
    exact fun ⟨x, y, r⟩ hp => replaceClause_sources hp

/-- **Every candidate is named in it.** -/
theorem occurs_formula (hr : r ∈ rel.reads) (hw : w ∈ rel.writes) (hz : ∃ p, p ∈ w.zone ∧ p ∈ r.zone) :
    Term.Occurs (seesTerm w.toAccess r.toAccess) (formula rel) := by
  have hbottom : r.zone.isBottom = false := by
    obtain ⟨p, -, hp⟩ := hz
    exact Zone.isBottom_eq_false_iff.2 ⟨p, hp⟩
  have hfind : w ∈ rel.find r.zone (·.isWrite) := by
    rw [Relation.mem_writes] at hw
    exact Relation.mem_find.2 ⟨hw.1, Zone.overlaps_iff.2 hz, hw.2⟩
  have hclause : seesClause r w ∈ (rel.reads.map (readClauses rel)).flatten := by
    refine List.mem_flatten.2 ⟨_, List.mem_map_of_mem hr, ?_⟩
    rw [readClauses, if_neg (by simp [hbottom])]
    exact List.mem_append_left _ (List.mem_map_of_mem hfind)
  have hatom : Term.Occurs (seesTerm w.toAccess r.toAccess) (seesClause r w) :=
    .operand List.mem_cons_self .self
  exact Term.occurs_conj (by simp) (Term.occurs_conj hclause hatom)

end

/-- A script names exactly the candidates of a relation. -/
structure ExactCandidates (rel : Relation) (script : Smt.Script) : Prop where
  /-- It says of a read and a write that one sees the other just in case their zones meet. -/
  atom_iff : ∀ r ∈ rel.reads, ∀ w ∈ rel.writes,
    script.Contains (seesTerm w.toAccess r.toAccess) ↔ (w.zone.meet r.zone).isBottom = false
  /-- It says so of no other numbers. -/
  numbers : ∀ w r : Nat, w < UInt64.size → r < UInt64.size →
    script.Contains (.eq (eventNumber w) (.apply readsFrom [eventNumber r] .int)) →
      (∃ e ∈ rel.writes, e.id = w) ∧ ∃ e ∈ rel.reads, e.id = r
  /-- And it names a source nowhere else. -/
  sources : ∀ t, script.Contains t → NamesSource t → CandidateAtom rel t

/-- Numbers of an atom, if they are not too large, are those of the events it is about. -/
theorem eq_of_seesTerm {w r : Access} {n k : Nat} (hw : w.id < UInt64.size) (hr : r.id < UInt64.size)
    (hn : n < UInt64.size) (hk : k < UInt64.size)
    (h : seesTerm w r = .eq (eventNumber n) (.apply readsFrom [eventNumber k] .int)) :
    w.id = n ∧ r.id = k := by
  simp only [seesTerm, eventNumber, Term.eq.injEq, Term.int.injEq, Term.apply.injEq, List.cons.injEq, true_and,
    and_true] at h
  exact ⟨Recorder.ofNat_toInt_inj hw hn h.1, Recorder.ofNat_toInt_inj hr hk h.2⟩

section
variable {rel : Relation} {c : Config} {script : Smt.Script}

theorem candidateAtom_of_contains (h : encode rel c = .ok script) {t : Term} (ht : script.Contains t)
    (hsource : NamesSource t) : CandidateAtom rel t := by
  obtain ⟨a, ha, hoccurs⟩ := ht
  rw [(encode_script h).2, List.mem_append, List.mem_map, List.mem_singleton] at ha
  obtain ⟨n, -, rfl⟩ | rfl := ha
  · exact (clockBound_sources _ n).allowed t hoccurs hsource
  · exact (formula_sources rel).allowed t hoccurs hsource

theorem contains_seesTerm (h : encode rel c = .ok script) {r w : Event} (hr : r ∈ rel.reads)
    (hw : w ∈ rel.writes) (hz : (w.zone.meet r.zone).isBottom = false) :
    script.Contains (seesTerm w.toAccess r.toAccess) := by
  refine ⟨formula rel, ?_, occurs_formula hr hw (meet_isBottom_eq_false.1 hz)⟩
  rw [(encode_script h).2]
  exact List.mem_append_right _ (List.mem_singleton_self _)

/-- If numbers are not too large, an atom with two numbers is that of the events they are of. -/
theorem exists_candidate (h : encode rel c = .ok script) (hid : ∀ e ∈ rel.events, e.id < UInt64.size)
    {n k : Nat} (hn : n < UInt64.size) (hk : k < UInt64.size)
    (hcontains : script.Contains (.eq (eventNumber n) (.apply readsFrom [eventNumber k] .int))) :
    ∃ r ∈ rel.reads, ∃ w ∈ rel.writes, w.id = n ∧ r.id = k ∧ (w.zone.meet r.zone).isBottom = false := by
  have hsource : NamesSource (.eq (eventNumber n) (.apply readsFrom [eventNumber k] .int)) :=
    ⟨_, _, List.mem_cons_of_mem _ List.mem_cons_self⟩
  obtain ⟨r, hr, w, hw, hz, heq⟩ := candidateAtom_of_contains h hcontains hsource
  obtain ⟨hwn, hrk⟩ := eq_of_seesTerm (hid w (Relation.mem_writes.1 hw).1)
    (hid r (Relation.mem_reads.1 hr).1) hn hk heq.symm
  exact ⟨r, hr, w, hw, hwn, hrk, hz⟩

end

/-- **Pruning is exact.** If the events of a relation are of one recorder, then a script that is there
names exactly the candidates of the relation. -/
theorem encode_exactCandidates {ops : List Recorder.Op}
    (hlen : (Recorder.after ops).events.length < UInt64.size) {rel : Relation}
    (hrel : ∀ e ∈ rel.events, e ∈ (Recorder.after ops).events) {c : Config}
    {script : Smt.Script} (h : encode rel c = .ok script) : ExactCandidates rel script := by
  have hid : ∀ e ∈ rel.events, e.id < UInt64.size := fun e he =>
    Nat.lt_of_le_of_lt ((Recorder.numbered_after ops).id_le e (hrel e he)) hlen
  refine ⟨fun r hr w hw => ⟨fun hcontains => ?_, contains_seesTerm h hr hw⟩,
    fun n k hn hk hcontains => ?_, fun t => candidateAtom_of_contains h⟩
  · have hwe := (Relation.mem_writes.1 hw).1
    have hre := (Relation.mem_reads.1 hr).1
    obtain ⟨r', hr', w', hw', hwid, hrid, hz⟩ := exists_candidate h hid (hid w hwe) (hid r hre) hcontains
    rwa [rel.eq_of_id_eq (Relation.mem_writes.1 hw').1 hwe hwid,
      rel.eq_of_id_eq (Relation.mem_reads.1 hr').1 hre hrid] at hz
  · obtain ⟨r, hr, w, hw, hwid, hrid, -⟩ := exists_candidate h hid hn hk hcontains
    exact ⟨⟨w, hw, hwid⟩, r, hr, hrid⟩

/-- Two writes, a read that overlaps both, one that overlaps the second, and one that no thread but its
own sees. -/
def overlapping : List Recorder.Op :=
  [.write (.ofPtr 1 true) (.lit (.int 5)), .write ((Address.ofPtr 2 true).join (.ofPtr 3 true)) (.lit (.int 6)),
    .read .int ((Address.ofPtr 1 true).join (.ofPtr 2 true)), .read .int (.ofPtr 3 true),
    .read .int (.ofPtr 1 false)]

theorem overlapping_exactCandidates : (Recorder.after overlapping).events.length < UInt64.size ∧
    ∃ script, encode (Recorder.after overlapping).relation {} = .ok script ∧
      ExactCandidates (Recorder.after overlapping).relation script ∧
      ¬ script.Contains (.eq (eventNumber 1) (.apply readsFrom [eventNumber 5] .int)) := by
  have hlen : (Recorder.after overlapping).events.length < UInt64.size := by decide +kernel
  have hrun : (encode (Recorder.after overlapping).relation {}).toOption.isSome = true := by decide +kernel
  obtain ⟨script, hs⟩ := Option.isSome_iff_exists.1 hrun
  have hscript := eq_ok_of_toOption hs
  have hexact := encode_exactCandidates hlen
    (fun e he => ((Recorder.numbered_after overlapping).mem_relation.1 he).1) hscript
  refine ⟨hlen, script, hscript, hexact, fun hcontains => ?_⟩
  have hlocal : ¬ ∃ e ∈ (Recorder.after overlapping).relation.reads, e.id = 5 := by decide +kernel
  exact hlocal (hexact.numbers 1 5 (by decide) (by decide) hcontains).2

end Memory

end Symex
