import Symex.Proofs.Passes

/-!
Encoding passes as calls for symbols. What a pass that succeeds asks for, and in which order, depends on
nothing but what it encodes, so the calls of a relation can be listed without a pass
(`Relation.calls`). A symbol is declared at the first call for its name, and a clock bounded at the first
call for it. So the calls of a relation and its formula say what its script is.
-/

namespace Symex.Memory

open Smt (Term TermSort Declaration)

/-! ### Calls -/

/-- A call for a symbol. -/
inductive Call where
  /-- For the constant of an event's value. -/
  | value (id : Nat) (sort : TermSort)
  | clock (id : Nat)
  /-- For the function from reads to writes. -/
  | readFrom (write read : Nat)

namespace Call

def make : Call → StateM Symbols Term
  | value id sort => Symbols.constant id sort
  | clock id => Symbols.clock id
  | readFrom write read => Symbols.readFrom write read

/-- The symbol that is asked for. -/
def declaration : Call → Declaration
  | value id sort => .const (valueName id) sort
  | clock id => .const (clockName id) .int
  | readFrom _ _ => .func readsFrom [.int] .int

/-- The event whose clock is asked for. -/
def clock? : Call → Option Nat
  | clock id => some id
  | _ => none

theorem clock?_eq_some {c : Call} {id : Nat} : c.clock? = some id ↔ c = clock id := by
  cases c with
  | value i sort => simp [clock?]
  | clock i => simp [clock?]
  | readFrom w r => simp [clock?]

/-- The clocks that are asked for. -/
theorem mem_clocks {cs : List Call} {n : Nat} : n ∈ cs.filterMap clock? ↔ clock n ∈ cs := by
  rw [List.mem_filterMap]
  simp only [clock?_eq_some, exists_eq_right]

/-- Only a call for a clock asks for its name. -/
theorem name_eq_clockName {c : Call} {id : Nat} : c.declaration.name = clockName id ↔ c = clock id := by
  cases c with
  | value i sort => simp [declaration, Declaration.name, valueName_ne_clockName]
  | clock i => simp [declaration, Declaration.name, clockName_inj]
  | readFrom w r => simp [declaration, Declaration.name, (clockName_ne_readsFrom id).symm]

/-- Calls for the same name ask for the same symbol, but that calls for a value may differ in its sort. -/
theorem declaration_eq_of_name_eq {c d : Call} (hn : c.declaration.name = d.declaration.name)
    (hv : ∀ id sort sort', c = value id sort → d = value id sort' → sort = sort') :
    c.declaration = d.declaration := by
  cases d with
  | clock id => rw [name_eq_clockName.1 hn]
  | value id sort =>
    cases c with
    | value i sort' =>
      obtain rfl : i = id := valueName_inj.1 hn
      rw [hv i sort' sort rfl rfl]
    | clock i => exact absurd hn.symm (valueName_ne_clockName id i)
    | readFrom w r => exact absurd hn.symm (valueName_ne_readsFrom id)
  | readFrom w r =>
    cases c with
    | value i sort => exact absurd hn (valueName_ne_readsFrom i)
    | clock i => exact absurd hn (clockName_ne_readsFrom i)
    | readFrom w' r' => rfl

end Call

namespace Symbols

/-- The symbols after calls. -/
def after (s : Symbols) (cs : List Call) : Symbols := cs.foldl (fun s c => (c.make s).2) s

theorem after_append (s : Symbols) (cs ds : List Call) : s.after (cs ++ ds) = (s.after cs).after ds :=
  List.foldl_append

/-- The symbols that calls lead to: every name was declared by the first call for it, and the clocks
were bounded in the order of the first calls for them. -/
structure Answers (bound : Int) (cs : List Call) (s : Symbols) : Prop where
  declarations : s.script.declarations = firstUses Declaration.name (cs.map Call.declaration)
  clocks : s.clocks.reverse = firstUses id (cs.filterMap Call.clock?)
  assertions : s.script.assertions = s.clocks.reverse.map (clockBound bound)
  bound_eq : s.lowerBound = bound

namespace Answers

variable {bound : Int} {cs : List Call} {s : Symbols}

theorem declares_iff (h : s.Answers bound cs) {name : String} :
    s.script.declares name = true ↔ name ∈ (cs.map Call.declaration).map Declaration.name := by
  rw [← mem_map_firstUses, ← h.declarations]
  simp [Smt.Script.declares]

/-- Declaring what is asked for adds it if it is the first of its name. -/
theorem declare (h : s.Answers bound cs) (c : Call) :
    (s.script.declare c.declaration).declarations =
      firstUses Declaration.name ((cs ++ [c]).map Call.declaration) := by
  rw [List.map_append, List.map_singleton, firstUses_concat, ← h.declarations, Smt.Script.declare]
  by_cases hc : s.script.declares c.declaration.name = true
  · rw [if_pos hc, if_pos (h.declares_iff.1 hc)]
  · rw [if_neg hc, if_neg (mt h.declares_iff.2 hc)]

theorem mem_clocks (h : s.Answers bound cs) {n : Nat} : n ∈ s.clocks ↔ .clock n ∈ cs := by
  rw [← List.mem_reverse, h.clocks, mem_firstUses_id, Call.mem_clocks]

/-- A call that asks for no clock only declares its symbol. -/
theorem declare_of_clock?_none (h : s.Answers bound cs) {c : Call} (hc : c.clock? = none) :
    Answers bound (cs ++ [c]) { s with script := s.script.declare c.declaration } where
  declarations := h.declare c
  clocks := by simpa [List.filterMap_append, hc] using h.clocks
  assertions := by simpa using h.assertions
  bound_eq := h.bound_eq

/-- A call for a clock adds it if it is new. -/
theorem clocks_concat (h : s.Answers bound cs) (n : Nat) :
    firstUses id ((cs ++ [Call.clock n]).filterMap Call.clock?) =
      if n ∈ s.clocks then s.clocks.reverse else s.clocks.reverse ++ [n] := by
  have hlast : [Call.clock n].filterMap Call.clock? = [n] := rfl
  have hmem : id n ∈ (cs.filterMap Call.clock?).map id ↔ n ∈ s.clocks := by
    rw [List.map_id, h.mem_clocks]
    exact Call.mem_clocks
  rw [List.filterMap_append, hlast, firstUses_concat, ← h.clocks]
  by_cases hn : n ∈ s.clocks
  · rw [if_pos (hmem.2 hn), if_pos hn]
  · rw [if_neg (mt hmem.1 hn), if_neg hn]

/-- **A call declares its symbol if the name is new, and bounds its clock if that is new.** -/
theorem make (h : s.Answers bound cs) (c : Call) : (c.make s).2.Answers bound (cs ++ [c]) := by
  cases c with
  | value n sort => exact h.declare_of_clock?_none (c := .value n sort) rfl
  | readFrom w r => exact h.declare_of_clock?_none (c := .readFrom w r) rfl
  | clock n =>
    have hdeclare := h.declare (.clock n)
    have hclocks := h.clocks_concat n
    show (Symbols.clock n s).2.Answers bound _
    by_cases hn : n ∈ s.clocks
    · -- the call came before, so the name is declared
      have hd : s.script.declares (Call.clock n).declaration.name = true :=
        h.declares_iff.2 (List.mem_map_of_mem (List.mem_map_of_mem (h.mem_clocks.1 hn)))
      rw [Smt.Script.declare, if_pos hd] at hdeclare
      rw [if_pos hn] at hclocks
      rw [clock_of_mem hn]
      exact ⟨hdeclare, hclocks.symm, h.assertions, h.bound_eq⟩
    · rw [if_neg hn] at hclocks
      rw [clock_of_not_mem hn]
      refine ⟨hdeclare, by rw [hclocks, List.reverse_cons], ?_, h.bound_eq⟩
      show (s.script.declare _).assertions ++ [clockBound s.lowerBound n] = _
      rw [Smt.Script.assertions_declare, h.assertions, h.bound_eq, List.reverse_cons, List.map_append,
        List.map_singleton]

theorem after (h : s.Answers bound cs) (ds : List Call) : (s.after ds).Answers bound (cs ++ ds) := by
  induction ds generalizing s cs with
  | nil =>
    rw [List.append_nil]
    exact h
  | cons c ds ih =>
    rw [List.append_cons]
    exact ih (h.make c)

end Answers

/-- **What symbols are after calls.** -/
theorem answers_after (c : Config) (cs : List Call) :
    ((ofConfig c).after cs).Answers c.clockLowerBound cs := by
  have hnew : (ofConfig c).Answers c.clockLowerBound [] := ⟨rfl, rfl, rfl, rfl⟩
  exact hnew.after cs

end Symbols

/-! ### Passes -/

/-- A pass that makes certain calls if it succeeds. -/
def Makes {α : Type} (x : Pass α) (cs : List Call) : Prop :=
  ∀ s a s', x.run.run s = (.ok a, s') → s' = s.after cs

namespace Makes

variable {α β : Type}

theorem pure (a : α) : Makes (Pure.pure a) [] := by
  intro s b s' h
  cases h
  rfl

theorem throw {e : Error} {cs : List Call} : Makes (throw e : Pass α) cs := by
  intro s b s' h
  cases h

theorem ofExcept (x : Except Error α) : Makes (liftM x) [] := by
  intro s b s' h
  have h : (x, s) = (.ok b, s') := h
  exact (Prod.mk.inj h).2.symm

theorem call (c : Call) : Makes (liftM c.make) [c] := by
  intro s t s' h
  have h : (Except.ok (c.make s).1, (c.make s).2) = (.ok t, s') := h
  exact (Prod.mk.inj h).2.symm

theorem congr {x : Pass α} {cs ds : List Call} (hx : Makes x cs) (h : cs = ds) : Makes x ds := h ▸ hx

theorem bind {x : Pass α} {f : α → Pass β} {cs ds : List Call} (hx : Makes x cs)
    (hf : ∀ a, Makes (f a) ds) : Makes (x >>= f) (cs ++ ds) := by
  intro s b s' h
  rcases hrun : x.run.run s with ⟨r, s1⟩
  rw [Builds.run_bind hrun] at h
  cases r with
  | error e => cases h
  | ok a =>
    rw [Symbols.after_append, ← hx s a s1 hrun]
    exact hf a s1 b s' h

theorem map {x : Pass α} {f : α → β} {cs : List Call} (hx : Makes x cs) : Makes (f <$> x) cs := by
  rw [map_eq_pure_bind]
  exact (hx.bind fun a => pure (f a)).congr (List.append_nil cs)

theorem mapM {f : α → Pass β} {g : α → List Call} {l : List α} (h : ∀ a ∈ l, Makes (f a) (g a)) :
    Makes (l.mapM f) (l.flatMap g) := by
  induction l with
  | nil => exact pure []
  | cons a l ih =>
    rw [List.mapM_cons, List.flatMap_cons]
    refine .bind (h a (by simp)) fun b => ?_
    exact ((ih fun x hx => h x (List.mem_cons_of_mem _ hx)).bind fun bs => pure (b :: bs)).congr
      (List.append_nil _)

end Makes

/-! ### Values -/

/-- The call for the constant of an access. -/
def Access.valueCall (a : Access) : Call := .value a.id a.sort

mutual
/-- An instruction asks for the constants of its accesses from left to right. -/
theorem Instr.encode_makes (i : Instr) : Makes i.encode (i.accesses.map Access.valueCall) := by
  match i with
  | .lit s => exact .pure _
  | .seen a => exact .call a.valueCall
  | .unary op i => exact (i.encode_makes.bind fun t => .ofExcept _).congr (by simp [accesses])
  | .binary op l r =>
    refine (l.encode_makes.bind fun x => r.encode_makes.bind fun y => .ofExcept _).congr ?_
    simp [accesses]
  | .nary op ty is =>
    unfold encode
    split
    · exact .throw
    · exact ((encodeAll_makes is).bind fun ts => .ofExcept _).congr (by simp [accesses])
  | .deref m o =>
    refine (m.encode_makes.bind fun x => o.encode_makes.bind fun y => (Makes.ofExcept _).bind fun k =>
      .ofExcept _).congr ?_
    simp [accesses]
theorem Instr.encodeAll_makes (is : List Instr) :
    Makes (Instr.encodeAll is) ((Instr.accessesAll is).map Access.valueCall) := by
  match is with
  | [] => exact .pure _
  | i :: is =>
    refine (i.encode_makes.bind fun t => (encodeAll_makes is).bind fun ts => .pure _).congr ?_
    simp [accessesAll]
end

namespace Event

/-- The calls for the constants in a guard. -/
def guardCalls (e : Event) : List Call := e.guardAccesses.map Access.valueCall

/-- The calls for the constants in what is stored, and for that of the event. -/
def storeCalls (e : Event) : List Call :=
  match e.payload with
  | .none => []
  | payload => payload.accesses.map Access.valueCall ++ [e.valueCall]

theorem guard?_makes (e : Event) : Makes e.guard? e.guardCalls := by
  unfold guard? guardCalls guardAccesses
  cases e.condition with
  | none => exact .pure _
  | some c => exact .map c.encode_makes

/-- An event that stores something has a term for it, after the calls for the constants in it. -/
theorem stored?_makes {e : Event} (h : e.payload ≠ .none) :
    ∃ x : Pass Term, e.stored? = some <$> x ∧ Makes x (e.payload.accesses.map Access.valueCall) := by
  unfold stored?
  cases hp : e.payload with
  | none => exact absurd hp h
  | value v =>
    cases e.shape with
    | scalar ty => exact ⟨v.encode, rfl, v.encode_makes⟩
    | array ty => exact ⟨Term.constArray e.sort <$> v.encode, by simp, v.encode_makes.map⟩
  | store m o v =>
    refine ⟨do
      let m ← m.encode
      let o ← indexTerm (← o.encode)
      return .store m o (← v.encode), by simp, ?_⟩
    refine (m.encode_makes.bind fun x => o.encode_makes.bind fun y => (Makes.ofExcept _).bind fun k =>
      v.encode_makes.bind fun z => .pure _).congr ?_
    simp [Payload.accesses]

theorem equation_makes (e : Event) : Makes e.equation e.storeCalls := by
  unfold equation storeCalls
  split
  · next hp =>
    have hnone : e.stored? = Pure.pure none := by rw [stored?, hp]
    rw [hnone]
    exact .pure _
  · next hp =>
    obtain ⟨x, hx, hmakes⟩ := stored?_makes hp
    rw [hx, map_eq_pure_bind, bind_assoc]
    refine hmakes.bind fun v => ?_
    rw [pure_bind]
    exact ((Makes.call e.valueCall).bind fun t => .pure _).congr (List.append_nil _)

end Event

/-! ### Order -/

/-- The calls for a read and a write that it may see. -/
def seesCalls (r w : Event) : List Call :=
  [.readFrom w.id r.id, .clock w.id] ++ w.guardCalls ++ [w.valueCall]

def readCalls (rel : Relation) (r : Event) : List Call :=
  if r.zone.isBottom then []
  else [.clock r.id, r.valueCall] ++ r.guardCalls ++ (rel.find r.zone (·.isWrite)).flatMap (seesCalls r)

/-- The calls for the clocks of an atom's writes, if there are at least two. -/
def serialCalls (rel : Relation) (atom : Zone) : List Call :=
  if (rel.find atom (·.isWrite)).length < 2 then []
  else (rel.find atom (·.isWrite)).map fun w => .clock w.id

def replaceCalls : Event × Event × Event → List Call
  | (x, y, r) => [.clock x.id, .clock y.id, .clock r.id, .readFrom x.id r.id] ++ y.guardCalls

/-- The calls for the symbols of a relation. -/
def Relation.calls (rel : Relation) : List Call :=
  rel.writes.flatMap Event.storeCalls ++ rel.reads.flatMap (readCalls rel) ++
    rel.atoms.flatMap (serialCalls rel) ++ (allFrTriples rel).flatMap replaceCalls

theorem rfPair_makes (r w : Event) (clock value : Term) (guard : Option Term) :
    Makes (rfPair r clock value guard w) (seesCalls r w) := by
  unfold rfPair
  split
  · refine ((Makes.call (.readFrom w.id r.id)).bind fun rf => (Makes.call (.clock w.id)).bind fun clk =>
      w.guard?_makes.bind fun g => (Makes.call w.valueCall).bind fun v => .pure _).congr ?_
    simp [seesCalls]
  · exact .throw

theorem rfRead_makes (rel : Relation) (r : Event) : Makes (rfRead rel r) (readCalls rel r) := by
  unfold rfRead readCalls
  split
  · exact .pure _
  · refine ((Makes.call (.clock r.id)).bind fun clk => (Makes.call r.valueCall).bind fun v =>
      r.guard?_makes.bind fun g => (Makes.mapM fun w _ => rfPair_makes r w clk v g).bind fun ps =>
      .pure _).congr ?_
    simp

theorem wsAtom_makes (rel : Relation) (atom : Zone) :
    Makes (liftM (wsAtom rel atom)) (serialCalls rel atom) := by
  unfold wsAtom serialCalls
  dsimp only
  split
  · exact .pure _
  · have hmap : Makes (liftM ((rel.find atom (·.isWrite)).mapM fun w => Symbols.clock w.id))
        ((rel.find atom (·.isWrite)).flatMap fun w => [.clock w.id]) := by
      rw [Builds.lift_mapM]
      exact .mapM fun w _ => .call (.clock w.id)
    rw [Builds.lift_bind]
    refine (hmap.bind fun ts => .pure _).congr ?_
    rw [List.append_nil, List.map_eq_flatMap]

theorem encodeWs_makes (rel : Relation) :
    Makes (liftM (encodeWs rel)) (rel.atoms.flatMap (serialCalls rel)) := by
  have hmap : Makes (liftM (rel.atoms.mapM (wsAtom rel))) (rel.atoms.flatMap (serialCalls rel)) := by
    rw [Builds.lift_mapM]
    exact .mapM fun atom _ => wsAtom_makes rel atom
  rw [encodeWs, Builds.lift_bind]
  exact (hmap.bind fun ts => .pure _).congr (List.append_nil _)

theorem frClause_makes (p : Event × Event × Event) : Makes (frClause p) (replaceCalls p) := by
  obtain ⟨x, y, r⟩ := p
  refine ((Makes.call (.clock x.id)).bind fun cx => (Makes.call (.clock y.id)).bind fun cy =>
    (Makes.call (.clock r.id)).bind fun cr => (Makes.call (.readFrom x.id r.id)).bind fun rf =>
    y.guard?_makes.bind fun g => .pure _).congr ?_
  simp [replaceCalls]

/-- **All parts together make the calls of the relation.** -/
theorem encodeParts_makes (rel : Relation) : Makes (encodeParts rel) rel.calls := by
  have hwrites : Makes (encodeWrites rel) (rel.writes.flatMap Event.storeCalls) :=
    ((Makes.mapM fun w _ => w.equation_makes).bind fun ts => .pure _).congr (List.append_nil _)
  have hrf : Makes (encodeRf rel) (rel.reads.flatMap (readCalls rel)) :=
    ((Makes.mapM fun r _ => rfRead_makes rel r).bind fun ts => .pure _).congr (List.append_nil _)
  have hfr : Makes (encodeFr rel) ((allFrTriples rel).flatMap replaceCalls) :=
    ((Makes.mapM fun p _ => frClause_makes p).bind fun ts => .pure _).congr (List.append_nil _)
  refine (hwrites.bind fun values => hrf.bind fun rf => (encodeWs_makes rel).bind fun ws =>
    hfr.bind fun fr => .pure _).congr ?_
  simp [Relation.calls]

/-! ### Scripts -/

/-- **What the script of a relation is.** It declares the symbols that the relation calls for, each name
as it is first called for, and asserts the bounds of the clocks in the order of the first calls for them,
and last the formula. -/
theorem encode_script {rel : Relation} {c : Config} {script : Smt.Script}
    (h : encode rel c = .ok script) :
    script.declarations = firstUses Declaration.name (rel.calls.map Call.declaration) ∧
    script.assertions =
      (firstUses id (rel.calls.filterMap Call.clock?)).map (clockBound c.clockLowerBound) ++
        [formula rel] := by
  unfold encode at h
  split at h
  · cases h
  · next t s hrun =>
    cases h
    obtain ⟨-, -, hparts⟩ :=
      encodeParts_builds rel.requests_any _ t s (Symbols.tidy_ofConfig c) hrun
    obtain ⟨rfl, -⟩ := hparts (fun _ _ => True) fun _ _ _ => trivial
    obtain rfl := encodeParts_makes rel _ _ s hrun
    have hs := Symbols.answers_after c rel.calls
    refine ⟨hs.declarations, ?_⟩
    show _ ++ [formula rel] = _
    rw [hs.assertions, hs.clocks]

end Symex.Memory
