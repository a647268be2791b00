import Symex.Proofs.InstructionTerms
import Symex.Proofs.MemoryAxioms

/-!
When encoding fails. Whether a pass fails, and why, does not depend on the symbols that have been handed
out (`Refuses`), and of passes in a row the first that fails decides. If the instructions of all shared
events can be encoded, the only pass that can fail is that of a read and a write that it may see, on
different sorts. Reads are taken by number, and for each the writes by number; so the first conflict in this
order is the one reported.
-/

namespace Symex

namespace Memory

open Smt (Term TermSort)

/-! ### Passes that fail -/

/-- A pass fails for a reason, or does not fail, whatever symbols have been handed out. -/
def Refuses {α : Type} (x : Pass α) (reason : Option Error) : Prop :=
  ∀ s, failure? (x.run.run s).1 = reason

namespace Refuses

variable {α β : Type}

theorem pure (a : α) : Refuses (Pure.pure a) none := fun _ => rfl

theorem throw (e : Error) : Refuses (throw e : Pass α) (some e) := fun _ => rfl

theorem lift (x : StateM Symbols α) : Refuses (liftM x) none := fun _ => rfl

theorem ofExcept {x : Except Error α} {a : α} (h : x = .ok a) : Refuses (liftM x) none := by
  subst h
  exact fun _ => rfl

/-- Of two passes in a row, the first that fails decides. -/
theorem bind {x : Pass α} {f : α → Pass β} {o o' : Option Error} (hx : Refuses x o)
    (hf : ∀ a, Refuses (f a) o') : Refuses (x >>= f) (o.or o') := by
  intro s
  rcases hrun : x.run.run s with ⟨r, s1⟩
  have hr := hx s
  rw [Builds.run_bind hrun]
  rw [hrun] at hr
  subst hr
  cases r with
  | error e => rfl
  | ok a => exact hf a s1

/-- A pass that does not fail leaves it to those after it. -/
theorem andThen {x : Pass α} {f : α → Pass β} {o : Option Error} (hx : Refuses x none)
    (hf : ∀ a, Refuses (f a) o) : Refuses (x >>= f) o := hx.bind hf

/-- Passes after it that do not fail make no difference. -/
theorem followed {x : Pass α} {f : α → Pass β} {o : Option Error} (hx : Refuses x o)
    (hf : ∀ a, Refuses (f a) none) : Refuses (x >>= f) o := by
  have h := hx.bind hf
  rwa [Option.or_none] at h

/-- If a pass always has the same result, those after it have to do with that one only. -/
theorem ofReturn {x : Pass α} {f : α → Pass β} {o : Option Error} {a : α} (hx : ∀ s, (x.run.run s).1 = .ok a)
    (hf : Refuses (f a) o) : Refuses (x >>= f) o := by
  intro s
  rcases hrun : x.run.run s with ⟨r, s1⟩
  have hr := hx s
  rw [Builds.run_bind hrun]
  rw [hrun] at hr
  subst hr
  exact hf s1

theorem map {x : Pass α} {f : α → β} {o : Option Error} (hx : Refuses x o) : Refuses (f <$> x) o := by
  rw [map_eq_pure_bind]
  exact hx.followed fun a => pure (f a)

theorem mapM {l : List α} {f : α → Pass β} {g : α → Option Error} (h : ∀ a ∈ l, Refuses (f a) (g a)) :
    Refuses (l.mapM f) (l.findSome? g) := by
  induction l with
  | nil => exact pure []
  | cons a l ih =>
    rw [List.forall_mem_cons] at h
    rw [List.mapM_cons, List.findSome?_cons]
    have hcons := h.1.bind fun b => (ih h.2).followed fun bs => pure (b :: bs)
    cases hg : g a with
    | none =>
      rw [hg] at hcons
      exact hcons
    | some e =>
      rw [hg] at hcons
      exact hcons

/-- If no pass of a list fails, the list does not. -/
theorem mapM_none {l : List α} {f : α → Pass β} (h : ∀ a ∈ l, Refuses (f a) none) :
    Refuses (l.mapM f) none := by
  have hnone := mapM (g := fun _ => none) h
  rwa [List.findSome?_eq_none_iff.2 fun _ _ => rfl] at hnone

end Refuses

/-! ### Events that can be encoded -/

/-- An instruction that can be encoded. -/
def Instr.Encodable (i : Instr) : Prop := ∃ s t, (i.encode.run.run s).1 = .ok t

theorem Instr.Encodable.returns {i : Instr} (h : i.Encodable) : ∃ t, ∀ s, (i.encode.run.run s).1 = .ok t := by
  obtain ⟨s, t, ht⟩ := h
  refine ⟨t, fun s' => ?_⟩
  rw [i.encode_fst s', ← i.encode_fst s, ht]

theorem Instr.Encodable.refuses {i : Instr} (h : i.Encodable) : Refuses i.encode none := by
  obtain ⟨t, ht⟩ := h.returns
  intro s
  rw [ht s]
  rfl

/-- The instructions of what an event stores. -/
def Payload.instrs : Payload → List Instr
  | .none => []
  | .value v => [v]
  | .store m o v => [m, o, v]

/-- An event all of whose instructions can be encoded, and whose offset, if it has one, is a word of at most
the width of an index. -/
structure Event.Encodable (e : Event) : Prop where
  guard : ∀ c, e.condition = some c → c.Encodable
  payload : ∀ i ∈ e.payload.instrs, i.Encodable
  offset : ∀ m o v, e.payload = .store m o v → ∀ s t, (o.encode.run.run s).1 = .ok t →
    ∃ w ≤ TermSort.indexWidth, t.sort = .ok (.bitVec w)

/-- A word of at most the width of an index can be one. -/
theorem exists_indexTerm {t : Term} {w : Nat} (hw : w ≤ TermSort.indexWidth) (h : t.sort = .ok (.bitVec w)) :
    ∃ k, indexTerm t = .ok k := by
  unfold indexTerm
  rw [h]
  by_cases heq : w = TermSort.indexWidth
  · refine ⟨t, ?_⟩
    simp [heq, bind, Except.bind, pure, Except.pure]
  · have hlt : w < TermSort.indexWidth := by omega
    refine ⟨.signExtend (TermSort.indexWidth - w) t, ?_⟩
    simp [heq, hlt, bind, Except.bind, pure, Except.pure]

namespace Event.Encodable

variable {e : Event}

theorem guard?_refuses (h : e.Encodable) : Refuses e.guard? none := by
  unfold guard?
  split
  · exact .pure _
  · next c hc => exact (h.guard c hc).refuses.map

theorem stored?_refuses (h : e.Encodable) : Refuses e.stored? none := by
  have hpay := h.payload
  unfold stored?
  split
  · exact .pure _
  · next v hp =>
    have hv : v.Encodable := hpay v (by simp [hp, Payload.instrs])
    split
    · exact hv.refuses.map
    · exact hv.refuses.andThen fun t => .pure _
  · next m o v hp =>
    simp only [hp, Payload.instrs, List.forall_mem_cons] at hpay
    obtain ⟨hm, ho, hv, -⟩ := hpay
    -- whether the offset is an index depends on its term, so that has to be known
    obtain ⟨y, hoffset⟩ := ho.returns
    obtain ⟨w, hw, hsort⟩ := h.offset m o v hp (.ofConfig {}) y (hoffset _)
    obtain ⟨k, hk⟩ := exists_indexTerm hw hsort
    exact hm.refuses.andThen fun x => .ofReturn hoffset ((Refuses.ofExcept hk).andThen fun _ =>
      hv.refuses.andThen fun _ => .pure _)

theorem equation_refuses (h : e.Encodable) : Refuses e.equation none := by
  unfold equation
  refine h.stored?_refuses.andThen fun t => ?_
  cases t with
  | none => exact .pure _
  | some v => exact (Refuses.lift _).andThen fun _ => .pure _

end Event.Encodable

/-! ### The order of events -/

/-- Why a read cannot see a write, if their sorts differ. -/
def sortConflict (r w : Event) : Option Error :=
  if w.sort = r.sort then none else some (.sortMismatch r.sort w.sort)

theorem sortConflict_eq_some {r w : Event} {err : Error} :
    sortConflict r w = some err ↔ w.sort ≠ r.sort ∧ err = .sortMismatch r.sort w.sort := by
  unfold sortConflict
  split
  · next h => simp [h]
  · next h => simp [h, eq_comm]

/-- The first conflict of a relation: of the first read that has one, that with the first write. -/
def Relation.conflict? (rel : Relation) : Option Error :=
  rel.reads.findSome? fun r => (rel.find r.zone (·.isWrite)).findSome? (sortConflict r)

section
variable {rel : Relation}

theorem rfPair_refuses {r w : Event} (hw : w.Encodable) (clock value : Term) (guard : Option Term) :
    Refuses (rfPair r clock value guard w) (sortConflict r w) := by
  unfold rfPair sortConflict
  split
  · exact (Refuses.lift _).andThen fun _ => (Refuses.lift _).andThen fun _ => hw.guard?_refuses.andThen
      fun _ => (Refuses.lift _).andThen fun _ => .pure _
  · exact .throw _

theorem find_bottom {z : Zone} (hz : z.isBottom = true) (test : Event → Bool) : rel.find z test = [] := by
  refine List.eq_nil_iff_forall_not_mem.2 fun e he => ?_
  obtain ⟨p, -, hp⟩ := Zone.overlaps_iff.1 (Relation.mem_find.1 he).2.1
  have hempty : z.ptrs = [] := List.isEmpty_iff.1 hz
  rw [← Zone.mem_ptrs, hempty] at hp
  simp at hp

theorem rfRead_refuses (henc : ∀ e ∈ rel.events, e.Encodable) {r : Event} (hr : r ∈ rel.reads) :
    Refuses (rfRead rel r) ((rel.find r.zone (·.isWrite)).findSome? (sortConflict r)) := by
  unfold rfRead
  split
  · next hz =>
    rw [find_bottom hz]
    exact .pure _
  · refine (Refuses.lift _).andThen fun clock => (Refuses.lift _).andThen fun value =>
      (henc r (Relation.mem_reads.1 hr).1).guard?_refuses.andThen fun guard => .followed ?_ fun _ => .pure _
    exact .mapM fun w hw => rfPair_refuses (henc w (Relation.mem_find.1 hw).1) clock value guard

theorem frClause_refuses (henc : ∀ e ∈ rel.events, e.Encodable) {p : Event × Event × Event}
    (hp : p ∈ allFrTriples rel) : Refuses (frClause p) none := by
  obtain ⟨x, y, r⟩ := p
  have hy := henc y (Relation.mem_writes.1 (mem_allFrTriples.1 hp).2.1).1
  exact (Refuses.lift _).andThen fun _ => (Refuses.lift _).andThen fun _ => (Refuses.lift _).andThen fun _ =>
    (Refuses.lift _).andThen fun _ => hy.guard?_refuses.andThen fun _ => .pure _

/-- **All parts together fail just in case there is a conflict, and for the first.** -/
theorem encodeParts_refuses (henc : ∀ e ∈ rel.events, e.Encodable) :
    Refuses (encodeParts rel) rel.conflict? := by
  have hwrites : Refuses (encodeWrites rel) none := by
    have hequations : ∀ w ∈ rel.writes, Refuses w.equation none := fun w hw =>
      (henc w (Relation.mem_writes.1 hw).1).equation_refuses
    exact (Refuses.mapM_none hequations).andThen fun _ => .pure _
  have hrf : Refuses (encodeRf rel) rel.conflict? :=
    (Refuses.mapM fun r hr => rfRead_refuses henc hr).followed fun _ => .pure _
  have hfr : Refuses (encodeFr rel) none :=
    (Refuses.mapM_none fun p hp => frClause_refuses henc hp).andThen fun _ => .pure _
  exact hwrites.andThen fun _ => hrf.followed fun _ => (Refuses.lift (encodeWs rel)).andThen fun _ =>
    hfr.andThen fun _ => .pure _

theorem encode_eq_error_iff (henc : ∀ e ∈ rel.events, e.Encodable) (c : Config) {err : Error} :
    encode rel c = .error err ↔ rel.conflict? = some err := by
  rw [← encodeParts_refuses henc (.ofConfig c)]
  unfold encode
  split
  · next e s hrun => simp [hrun, failure?]
  · next t s hrun => simp [hrun, failure?]

end

/-! ### Recordings -/

/-- In a list of events by number, the first that gives something is the one with the least number. -/
theorem findSome?_ascending {β : Type} {l : List Event} (hl : l.Pairwise (·.id < ·.id)) {f : Event → Option β}
    {b : β} : l.findSome? f = some b ↔
      ∃ e ∈ l, f e = some b ∧ ∀ e' ∈ l, ∀ b', f e' = some b' → e.id ≤ e'.id := by
  have hfirst : ∀ {b}, l.findSome? f = some b →
      ∃ e ∈ l, f e = some b ∧ ∀ e' ∈ l, ∀ b', f e' = some b' → e.id ≤ e'.id := by
    intro b hb
    obtain ⟨before, e, rest, rfl, he, hbefore⟩ := List.findSome?_eq_some_iff.1 hb
    refine ⟨e, by simp, he, fun e' he' b' hb' => ?_⟩
    rcases List.mem_append.1 he' with h | h
    · rw [hbefore e' h] at hb'
      cases hb'
    · rcases List.mem_cons.1 h with rfl | h
      · exact Nat.le_refl _
      · exact Nat.le_of_lt ((List.pairwise_cons.1 (List.pairwise_append.1 hl).2.1).1 e' h)
  refine ⟨hfirst, fun ⟨e, he, hb, hleast⟩ => ?_⟩
  -- whatever is found first has the same number
  cases hfound : l.findSome? f with
  | none =>
    rw [List.findSome?_eq_none_iff.1 hfound e he] at hb
    cases hb
  | some b' =>
    obtain ⟨e', he', hb', hleast'⟩ := hfirst hfound
    have hid : e.id = e'.id := Nat.le_antisymm (hleast e' he' b' hb') (hleast' e he b hb)
    rw [← hb, ← hb', eq_of_ascending hl he he' hid]

namespace Recorder

/-- A shared read and a shared write that it may see, of different sorts. -/
structure Conflict (rec : Recorder) (r w : Event) : Prop where
  read : rec.SharedRead r
  write : rec.SharedWrite w
  overlap : ∃ p, p ∈ w.zone ∧ p ∈ r.zone
  sort_ne : w.sort ≠ r.sort

/-- The conflict that comes before all others by the number of the read, then by that of the write. -/
structure FirstConflict (rec : Recorder) (r w : Event) : Prop extends rec.Conflict r w where
  first : ∀ r' w', rec.Conflict r' w' → r.id < r'.id ∨ r.id = r'.id ∧ w.id ≤ w'.id

variable {rec : Recorder}

theorem Numbered.conflict_iff (hn : rec.Numbered) {r w : Event} : rec.Conflict r w ↔
    r ∈ rec.relation.reads ∧ w ∈ rec.relation.find r.zone (·.isWrite) ∧
      ∃ err, sortConflict r w = some err := by
  simp only [mem_relation_reads hn, mem_relation_find hn, sortConflict_eq_some]
  constructor
  · exact fun h => ⟨h.read, ⟨h.write, h.overlap⟩, _, h.sort_ne, rfl⟩
  · rintro ⟨hr, ⟨hw, hp⟩, _, hs, -⟩
    exact ⟨hr, hw, hp, hs⟩

/-- **What is found first is the first conflict.** -/
theorem Numbered.conflict?_eq_some (hn : rec.Numbered) {err : Error} : rec.relation.conflict? = some err ↔
    ∃ r w, rec.FirstConflict r w ∧ err = .sortMismatch r.sort w.sort := by
  have hreads : rec.relation.reads.Pairwise (·.id < ·.id) := rec.relation.ascending.filter _
  have hwrites : ∀ z, (rec.relation.find z (·.isWrite)).Pairwise (·.id < ·.id) := fun z =>
    rec.relation.ascending.filter _
  unfold Relation.conflict?
  rw [findSome?_ascending hreads]
  constructor
  · rintro ⟨r, hr, hfound, hleastRead⟩
    obtain ⟨w, hw, herr, hleast⟩ := (findSome?_ascending (hwrites _)).1 hfound
    have hconflict := hn.conflict_iff.2 ⟨hr, hw, err, herr⟩
    refine ⟨r, w, ⟨hconflict, fun r' w' hc => ?_⟩, (sortConflict_eq_some.1 herr).2⟩
    obtain ⟨hr', hw', err', herr'⟩ := hn.conflict_iff.1 hc
    have hfound' := List.findSome?_isSome_iff.2 ⟨w', hw', Option.isSome_of_eq_some herr'⟩
    obtain ⟨b', hb'⟩ := Option.isSome_iff_exists.1 hfound'
    rcases Nat.lt_or_eq_of_le (hleastRead r' hr' b' hb') with hlt | heq
    · exact .inl hlt
    · obtain rfl := eq_of_ascending hreads hr hr' heq
      exact .inr ⟨rfl, hleast w' hw' err' herr'⟩
  · rintro ⟨r, w, hfirst, rfl⟩
    obtain ⟨hr, hw, -⟩ := hn.conflict_iff.1 hfirst.toConflict
    have herr := sortConflict_eq_some.2 ⟨hfirst.sort_ne, rfl⟩
    refine ⟨r, hr, (findSome?_ascending (hwrites _)).2 ⟨w, hw, herr, fun w' hw' err' herr' => ?_⟩,
      fun r' hr' err' hfound => ?_⟩
    · rcases hfirst.first r w' (hn.conflict_iff.2 ⟨hr, hw', err', herr'⟩) with h | h
      · omega
      · exact h.2
    · obtain ⟨w', hw', herr', -⟩ := (findSome?_ascending (hwrites _)).1 hfound
      rcases hfirst.first r' w' (hn.conflict_iff.2 ⟨hr', hw', err', herr'⟩) with h | h
      · omega
      · omega

/-- If there are conflicts, one is the first. -/
theorem Numbered.exists_conflict_iff (hn : rec.Numbered) :
    (∃ r w, rec.Conflict r w) ↔ ∃ err, rec.relation.conflict? = some err := by
  constructor
  · rintro ⟨r, w, hc⟩
    obtain ⟨hr, hw, err, herr⟩ := hn.conflict_iff.1 hc
    refine Option.isSome_iff_exists.1 (List.findSome?_isSome_iff.2 ⟨r, hr, ?_⟩)
    exact List.findSome?_isSome_iff.2 ⟨w, hw, Option.isSome_of_eq_some herr⟩
  · rintro ⟨err, herr⟩
    obtain ⟨r, w, hfirst, -⟩ := hn.conflict?_eq_some.1 herr
    exact ⟨r, w, hfirst.toConflict⟩

end Recorder

/-- **Encoding fails exactly on conflicts.** If the instructions of all shared events of a recording can be
encoded, then encoding it fails just in case a read and a write that it may see differ in sort, and what is
reported are the two sorts of the first conflict. -/
theorem encode_fails_iff_conflict {ops : List Recorder.Op}
    (henc : ∀ e ∈ (Recorder.after ops).events, e.addr.shared = true → e.Encodable) (c : Config) :
    ((∃ err, encode (Recorder.after ops).relation c = .error err) ↔
      ∃ r w, (Recorder.after ops).Conflict r w) ∧
    ∀ err, encode (Recorder.after ops).relation c = .error err ↔
      ∃ r w, (Recorder.after ops).FirstConflict r w ∧ err = .sortMismatch r.sort w.sort := by
  have hn := Recorder.numbered_after ops
  have hrel : ∀ e ∈ (Recorder.after ops).relation.events, e.Encodable := fun e he =>
    henc e (hn.mem_relation.1 he).1 (hn.mem_relation.1 he).2
  simp only [encode_eq_error_iff hrel]
  exact ⟨hn.exists_conflict_iff.symm, fun err => hn.conflict?_eq_some⟩

/-- A write of `char` under a guard, one into an array of `short` that is read as such, and a read of `int`
that overlaps both. A read of `int` where `char` is written comes first, but no other thread sees it. -/
def mixedSorts : List Recorder.Op :=
  let cells : Access := ⟨3, .read, .array .short, .ofPtr 2 true⟩
  let count : Access := ⟨1, .read, .scalar .int, .ofPtr 1 false⟩
  [.read .int (.ofPtr 1 false), .pushGuard (.binary .lt (.seen count) (.lit (.int 3))),
    .write (.ofPtr 1 true) (.lit (.char 4)), .popGuard, .readArray .short (.ofPtr 2 true),
    .writeIndirect cells (.lit (.char 1)) (.lit (.short 9)),
    .read .int ((Address.ofPtr 1 true).join (.ofPtr 2 true))]

theorem mixedSorts_encodable : ∀ e ∈ (Recorder.after mixedSorts).events, e.Encodable := by
  have lit : ∀ v, (Instr.lit v).Encodable := fun v => ⟨.ofConfig {}, _, rfl⟩
  have hread : ∀ e : Event, e.condition = none → e.payload = .none → e.Encodable := by
    intro e hc hp
    exact ⟨by simp [hc], by simp [hp, Payload.instrs], by simp [hp]⟩
  refine List.forall_mem_cons.2 ⟨hread _ rfl rfl, List.forall_mem_cons.2 ⟨?_, List.forall_mem_cons.2
    ⟨hread _ rfl rfl, List.forall_mem_cons.2 ⟨?_, List.forall_mem_cons.2 ⟨hread _ rfl rfl, nofun⟩⟩⟩⟩⟩
  · refine ⟨?_, List.forall_mem_singleton.2 (lit _), nofun⟩
    rintro c hc
    cases hc
    exact ⟨.ofConfig {}, _, rfl⟩
  · refine ⟨nofun, ?_, ?_⟩
    · exact List.forall_mem_cons.2 ⟨⟨.ofConfig {}, _, rfl⟩, List.forall_mem_cons.2 ⟨lit _,
        List.forall_mem_singleton.2 (lit _)⟩⟩
    · rintro m o v hp s t ht
      cases hp
      cases ht
      exact ⟨8, by decide, rfl⟩

theorem mixedSorts_fails : encode (Recorder.after mixedSorts).relation {} =
      .error (.sortMismatch (.bitVec 32) (.bitVec 8)) ∧
    ∃ r w, (Recorder.after mixedSorts).FirstConflict r w ∧ r.sort = .bitVec 32 ∧ w.sort = .bitVec 8 := by
  have herror : encode (Recorder.after mixedSorts).relation {} =
      .error (.sortMismatch (.bitVec 32) (.bitVec 8)) := rfl
  obtain ⟨r, w, hfirst, herr⟩ :=
    ((encode_fails_iff_conflict (fun e he _ => mixedSorts_encodable e he) {}).2 _).1 herror
  obtain ⟨hr, hw⟩ := Error.sortMismatch.inj herr
  exact ⟨herror, r, w, hfirst, hr.symm, hw.symm⟩

end Memory

end Symex
