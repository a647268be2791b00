import Std.Data.String.ToNat
import Symex.Proofs.Atoms
import Symex.Proofs.Clauses

/-!
What encoding passes do to their symbols. A pass keeps its symbols in order (`Tidy`): only constants of
values and clocks and the function from reads to writes are declared, and exactly the declared clocks
are bounded. A pass that succeeds gives the terms that `formula` is made of, and has declared every
symbol in them.
-/

namespace Symex.Memory

open Smt (Term TermSort Declaration)

/-! ### Names -/

theorem valueName_inj {a b : Nat} : valueName a = valueName b ↔ a = b := by
  simp [valueName, Nat.repr_inj]

theorem clockName_inj {a b : Nat} : clockName a = clockName b ↔ a = b := by
  simp [clockName, Nat.repr_inj]

theorem valueName_ne_clockName (a b : Nat) : valueName a ≠ clockName b := by
  intro h
  have := congrArg String.toList h
  simp [valueName, clockName] at this

theorem valueName_ne_readsFrom (a : Nat) : valueName a ≠ readsFrom := by
  intro h
  have := congrArg String.toList h
  simp [valueName, readsFrom] at this

theorem clockName_ne_readsFrom (a : Nat) : clockName a ≠ readsFrom := by
  intro h
  have := congrArg String.toList h
  simp [clockName, readsFrom] at this

/-! ### Symbols in order -/

/-- That a clock is above a bound. -/
def clockBound (bound : Int) (id : Nat) : Term := .gt (.const (clockName id) .int) (.int bound)

/-- A constant that has been declared. -/
def Symbols.Known (s : Symbols) (name : String) (sort : TermSort) : Prop :=
  .const name sort ∈ s.script.declarations

/-- Symbols of values at requested sorts and of clocks of certain events, each of which has its bound. -/
structure Symbols.Tidy (R : Nat → TermSort → Prop) (T : Nat → Prop) (bound : Int) (s : Symbols) : Prop where
  declared : ∀ d ∈ s.script.declarations,
    (∃ id sort, d = .const (valueName id) sort ∧ R id sort) ∨
    (∃ id ∈ s.clocks, d = .const (clockName id) .int) ∨ d = .func readsFrom [.int] .int
  clock_known : ∀ id ∈ s.clocks, s.Known (clockName id) .int
  clock_of : ∀ id ∈ s.clocks, T id
  mem_assertions : ∀ t, t ∈ s.script.assertions ↔ ∃ id ∈ s.clocks, t = clockBound bound id
  bound_eq : s.lowerBound = bound

section
variable {R : Nat → TermSort → Prop} {T : Nat → Prop} {bound : Int} {s : Symbols}

theorem Symbols.tidy_ofConfig (c : Config) : Tidy R T c.clockLowerBound (.ofConfig c) where
  declared := by simp [ofConfig, Smt.Script.ofConfig]
  clock_known := by simp [ofConfig]
  clock_of := by simp [ofConfig]
  mem_assertions := by simp [ofConfig, Smt.Script.ofConfig]
  bound_eq := rfl

/-- A declared name has been declared as something. -/
theorem Symbols.exists_declaration {name : String} (h : s.script.declares name = true) :
    ∃ d ∈ s.script.declarations, d.name = name := by
  simpa [Smt.Script.declares] using h

theorem mem_declarations_declare {script : Smt.Script} {d : Declaration} {x : Declaration} :
    x ∈ (script.declare d).declarations ↔
      x ∈ script.declarations ∨ script.declares d.name = false ∧ x = d := by
  unfold Smt.Script.declare
  split
  · next h => simp [h]
  · next h =>
    have h : script.declares d.name = false := by simpa using h
    simp [h]

/-- Declaring something of an allowed form keeps symbols in order. -/
theorem Symbols.Tidy.declare (h : s.Tidy R T bound) {d : Declaration}
    (hd : (∃ id sort, d = .const (valueName id) sort ∧ R id sort) ∨ d = .func readsFrom [.int] .int) :
    Tidy R T bound { s with script := s.script.declare d } where
  declared := by
    intro x hx
    rcases mem_declarations_declare.1 hx with hx | ⟨-, rfl⟩
    · exact h.declared x hx
    · rcases hd with hd | hd
      · exact .inl hd
      · exact .inr (.inr hd)
  clock_known := fun id hid => mem_declarations_declare.2 (.inl (h.clock_known id hid))
  clock_of := h.clock_of
  mem_assertions := by
    intro t
    rw [Smt.Script.assertions_declare]
    exact h.mem_assertions t
  bound_eq := h.bound_eq

/-- A clock is declared, and its bound asserted, when it is first used. -/
theorem Symbols.Tidy.addClock (h : s.Tidy R T bound) {id : Nat} (hid : id ∉ s.clocks) (hT : T id) :
    Tidy R T bound
      { s with
        clocks := id :: s.clocks
        script := (s.script.declare (.const (clockName id) .int)).assert (clockBound bound id) } := by
  -- the name is new: whoever declared it before would have noted the clock
  have hnew : s.script.declares (clockName id) = false := by
    cases hd : s.script.declares (clockName id) with
    | false => rfl
    | true =>
      obtain ⟨d, hd, hn⟩ := exists_declaration hd
      rcases h.declared d hd with ⟨i, sort, rfl, -⟩ | ⟨i, hi, rfl⟩ | rfl
      · exact absurd hn (valueName_ne_clockName i id)
      · exact absurd (clockName_inj.1 hn ▸ hi) hid
      · exact absurd hn.symm (clockName_ne_readsFrom id)
  constructor
  · intro x hx
    rcases mem_declarations_declare.1 hx with hx | ⟨-, rfl⟩
    · rcases h.declared x hx with hv | ⟨i, hi, hx⟩ | hf
      · exact .inl hv
      · exact .inr (.inl ⟨i, List.mem_cons_of_mem _ hi, hx⟩)
      · exact .inr (.inr hf)
    · exact .inr (.inl ⟨id, by simp, rfl⟩)
  · intro i hi
    refine mem_declarations_declare.2 ?_
    rcases List.mem_cons.1 hi with rfl | hi
    · exact .inr ⟨hnew, rfl⟩
    · exact .inl (h.clock_known i hi)
  · intro i hi
    rcases List.mem_cons.1 hi with rfl | hi
    · exact hT
    · exact h.clock_of i hi
  · intro t
    show t ∈ (s.script.declare _).assertions ++ [clockBound bound id] ↔ _
    rw [Smt.Script.assertions_declare, List.mem_append, h.mem_assertions t]
    simp [or_comm]
  · exact h.bound_eq

end

/-! ### Passes that build terms -/

/-- A pass that keeps its symbols in order and only adds to them. If it succeeds, its result satisfies
a predicate of the constants that are known at the end of all passes, of which there may be more. -/
def Builds {α : Type} (R : Nat → TermSort → Prop) (T : Nat → Prop) (bound : Int) (x : Pass α)
    (Q : (String → TermSort → Prop) → α → Prop) : Prop :=
  ∀ s a s', s.Tidy R T bound → x.run.run s = (.ok a, s') →
    s'.Tidy R T bound ∧ (∀ n t, s.Known n t → s'.Known n t) ∧
      ∀ K : String → TermSort → Prop, (∀ n t, s'.Known n t → K n t) → Q K a

namespace Builds

variable {α β : Type} {R : Nat → TermSort → Prop} {T : Nat → Prop} {bound : Int}

theorem pure {a : α} {Q : (String → TermSort → Prop) → α → Prop} (h : ∀ K, Q K a) :
    Builds R T bound (Pure.pure a) Q := by
  rintro s b s' hs hx
  cases hx
  exact ⟨hs, fun _ _ hk => hk, fun K _ => h K⟩

theorem throw {e : Error} {Q : (String → TermSort → Prop) → α → Prop} :
    Builds R T bound (throw e) Q := by
  rintro s b s' hs hx
  cases hx

theorem mono {x : Pass α} {P Q : (String → TermSort → Prop) → α → Prop} (hx : Builds R T bound x P)
    (h : ∀ K a, P K a → Q K a) : Builds R T bound x Q := by
  intro s a s' hs hrun
  obtain ⟨hs', hle, hP⟩ := hx s a s' hs hrun
  exact ⟨hs', hle, fun K hK => h K a (hP K hK)⟩

theorem run_bind {x : Pass α} {f : α → Pass β} {s s1 : Symbols} {r : Except Error α}
    (hx : x.run.run s = (r, s1)) : (x >>= f).run.run s =
      match r with
      | .ok a => (f a).run.run s1
      | .error e => (.error e, s1) := by
  simp only [ExceptT.run_bind, StateT.run_bind, hx]
  cases r with
  | ok a => rfl
  | error e => rfl

/-- What is known after the first pass is known at the end. -/
theorem bind {x : Pass α} {f : α → Pass β} {P : (String → TermSort → Prop) → α → Prop}
    {Q : (String → TermSort → Prop) → β → Prop} (hx : Builds R T bound x P)
    (hf : ∀ a K, P K a → Builds R T bound (f a) fun K b => P K a → Q K b) :
    Builds R T bound (x >>= f) Q := by
  intro s b s' hs hrun
  rcases hx' : x.run.run s with ⟨r, s1⟩
  rw [run_bind hx'] at hrun
  cases r with
  | error e => cases hrun
  | ok a =>
    obtain ⟨hs1, hle1, hP⟩ := hx s a s1 hs hx'
    obtain ⟨hs', hle, hQ⟩ := hf a s1.Known (hP s1.Known fun _ _ hk => hk) s1 b s' hs1 hrun
    refine ⟨hs', fun n t hk => hle n t (hle1 n t hk), fun K hK => hQ K hK ?_⟩
    exact hP K fun n t hk => hK n t (hle n t hk)

/-- A result that is there is taken as it is. -/
theorem ofExcept {x : Except Error α} {Q : (String → TermSort → Prop) → α → Prop}
    (h : ∀ a, x = .ok a → ∀ K, Q K a) : Builds R T bound (liftM x) Q := by
  rintro s a s' hs hx
  have hx : (x, s) = (.ok a, s') := hx
  obtain ⟨rfl, rfl⟩ := Prod.mk.inj hx
  exact ⟨hs, fun _ _ hk => hk, fun K _ => h a rfl K⟩

/-- Handing out symbols does not fail. -/
theorem lift {x : StateM Symbols α} {Q : (String → TermSort → Prop) → α → Prop}
    (h : ∀ s, s.Tidy R T bound → (x s).2.Tidy R T bound ∧ (∀ n t, s.Known n t → (x s).2.Known n t) ∧
      ∀ K : String → TermSort → Prop, (∀ n t, (x s).2.Known n t → K n t) → Q K (x s).1) :
    Builds R T bound (liftM x) Q := by
  rintro s a s' hs hx
  have hx : (Except.ok (x s).1, (x s).2) = (Except.ok a, s') := hx
  obtain ⟨ha, rfl⟩ := Prod.mk.inj hx
  cases ha
  exact h s hs

theorem lift_bind (x : StateM Symbols α) (f : α → StateM Symbols β) :
    (liftM (x >>= f) : Pass β) = liftM x >>= fun a => liftM (f a) := rfl

theorem lift_mapM (l : List α) (f : α → StateM Symbols β) :
    (liftM (l.mapM f) : Pass (List β)) = l.mapM fun a => liftM (f a) := by
  induction l with
  | nil => rfl
  | cons a l ih =>
    rw [List.mapM_cons, List.mapM_cons, ← ih]
    rfl

theorem map {x : Pass α} {f : α → β} {Q : (String → TermSort → Prop) → β → Prop}
    (hx : Builds R T bound x fun K a => Q K (f a)) : Builds R T bound (f <$> x) Q := by
  rw [map_eq_pure_bind]
  exact .bind hx fun a _ _ => .pure fun K h => h

/-- A pass for every element of a list, each of which gives a term that depends on no other. -/
theorem mapM {l : List α} {f : α → Pass β} {g : α → β} {P : (String → TermSort → Prop) → α → Prop}
    (h : ∀ a ∈ l, Builds R T bound (f a) fun K b => b = g a ∧ P K a) :
    Builds R T bound (l.mapM f) fun K bs => bs = l.map g ∧ ∀ a ∈ l, P K a := by
  induction l with
  | nil => exact .pure fun K => ⟨rfl, by simp⟩
  | cons a l ih =>
    rw [List.mapM_cons]
    refine .bind (h a (by simp)) fun b _ _ => .bind (ih fun x hx => h x (List.mem_cons_of_mem _ hx))
      fun bs _ _ => .pure ?_
    rintro K ⟨rfl, hl⟩ ⟨rfl, ha⟩
    rw [List.forall_mem_cons]
    exact ⟨rfl, ha, hl⟩

end Builds

/-! ### Symbols -/

section
variable {R : Nat → TermSort → Prop} {T : Nat → Prop} {bound : Int}

/-- The constant of an event is known at a sort that was requested for it. -/
def KnownValue (R : Nat → TermSort → Prop) (K : String → TermSort → Prop) (id : Nat) : Prop :=
  ∃ sort, R id sort ∧ K (valueName id) sort

theorem constant_builds {id : Nat} {sort : TermSort} (h : R id sort) :
    Builds R T bound (liftM (Symbols.constant id sort)) fun K t =>
      t = .const (valueName id) sort ∧ KnownValue R K id := by
  refine .lift fun s hs => ⟨hs.declare (.inl ⟨id, sort, rfl, h⟩), fun n t hk => ?_, fun K hK => ⟨rfl, ?_⟩⟩
  · exact mem_declarations_declare.2 (.inl hk)
  · cases hd : s.script.declares (valueName id) with
    | false => exact ⟨sort, h, hK _ _ (mem_declarations_declare.2 (.inr ⟨hd, rfl⟩))⟩
    | true =>
      -- the name is taken, so it was declared for this event
      obtain ⟨d, hmem, hn⟩ := Symbols.exists_declaration hd
      rcases hs.declared d hmem with ⟨i, sort', rfl, hi⟩ | ⟨i, hi, rfl⟩ | rfl
      · obtain rfl := valueName_inj.1 hn
        exact ⟨sort', hi, hK _ _ (mem_declarations_declare.2 (.inl hmem))⟩
      · exact absurd hn.symm (valueName_ne_clockName id i)
      · exact absurd hn.symm (valueName_ne_readsFrom id)

theorem Symbols.clock_of_mem {s : Symbols} {id : Nat} (h : id ∈ s.clocks) :
    Symbols.clock id s = (.const (clockName id) .int, s) := by
  unfold Symbols.clock
  simp only [bind, StateT.bind, get, getThe, MonadStateOf.get, StateT.get, pure, h, if_true]
  rfl

theorem Symbols.clock_of_not_mem {s : Symbols} {id : Nat} (h : id ∉ s.clocks) :
    Symbols.clock id s = (.const (clockName id) .int,
      { s with
        clocks := id :: s.clocks
        script := (s.script.declare (.const (clockName id) .int)).assert
          (clockBound s.lowerBound id) }) := by
  unfold Symbols.clock
  simp only [bind, StateT.bind, get, getThe, MonadStateOf.get, StateT.get, pure, h, if_false]
  rfl

theorem clock_builds {id : Nat} (h : T id) :
    Builds R T bound (liftM (Symbols.clock id)) fun K t =>
      t = .const (clockName id) .int ∧ K (clockName id) .int := by
  refine .lift fun s hs => ?_
  obtain rfl := hs.bound_eq
  by_cases hid : id ∈ s.clocks
  · rw [Symbols.clock_of_mem hid]
    exact ⟨hs, fun _ _ hk => hk, fun K hK => ⟨rfl, hK _ _ (hs.clock_known id hid)⟩⟩
  · rw [Symbols.clock_of_not_mem hid]
    have htidy := hs.addClock hid h
    refine ⟨htidy, fun n t hk => mem_declarations_declare.2 (.inl hk), fun K hK => ⟨rfl, ?_⟩⟩
    exact hK _ _ (htidy.clock_known id (by simp))

theorem readFrom_builds (w r : Access) :
    Builds R T bound (liftM (Symbols.readFrom w.id r.id)) fun _ t => t = seesTerm w r := by
  refine .lift fun s hs => ⟨hs.declare (.inr rfl), fun n t hk => ?_, fun K hK => rfl⟩
  exact mem_declarations_declare.2 (.inl hk)

/-! ### Values -/

mutual
/-- Encoding an instruction gives its term, and declares the constants of its accesses. -/
theorem Instr.encode_builds (i : Instr) (h : ∀ a ∈ i.accesses, R a.id a.sort) :
    Builds R T bound i.encode fun K t => i.term = .ok t ∧ ∀ a ∈ i.accesses, KnownValue R K a.id := by
  match i with
  | .lit s => exact .pure fun K => ⟨rfl, by simp [accesses]⟩
  | .seen a =>
    refine (constant_builds (h a (by simp [accesses]))).mono ?_
    rintro K t ⟨rfl, hk⟩
    exact ⟨rfl, by simpa [accesses] using hk⟩
  | .unary op i =>
    refine .bind (i.encode_builds h) fun x _ _ => .ofExcept ?_
    rintro t ht K ⟨hx, hk⟩
    exact ⟨bind_eq_ok.2 ⟨x, hx, ht⟩, hk⟩
  | .binary op l r =>
    refine .bind (l.encode_builds fun a ha => h a (by simp [accesses, ha])) fun x _ _ =>
      .bind (r.encode_builds fun a ha => h a (by simp [accesses, ha])) fun y _ _ => .ofExcept ?_
    rintro t ht K ⟨hy, hkr⟩ ⟨hx, hkl⟩
    refine ⟨bind_eq_ok.2 ⟨x, hx, bind_eq_ok.2 ⟨y, hy, ht⟩⟩, fun a ha => ?_⟩
    rcases List.mem_append.1 ha with ha | ha
    · exact hkl a ha
    · exact hkr a ha
  | .nary op ty is =>
    unfold encode term
    split
    · exact .throw
    · refine .bind (encodeAll_builds is h) fun ts _ _ => .ofExcept ?_
      rintro t ht K ⟨hts, hk⟩
      exact ⟨bind_eq_ok.2 ⟨ts, hts, ht⟩, hk⟩
  | .deref m o =>
    refine .bind (m.encode_builds fun a ha => h a (by simp [accesses, ha])) fun x _ _ =>
      .bind (o.encode_builds fun a ha => h a (by simp [accesses, ha])) fun y _ _ =>
      .bind (.ofExcept (Q := fun _ k => indexTerm y = .ok k) fun k hk _ => hk) fun k _ _ => .ofExcept ?_
    rintro t ht K hk ⟨hy, hko⟩ ⟨hx, hkm⟩
    refine ⟨bind_eq_ok.2 ⟨x, hx, bind_eq_ok.2 ⟨y, hy, bind_eq_ok.2 ⟨k, hk, ht⟩⟩⟩, fun a ha => ?_⟩
    rcases List.mem_append.1 ha with ha | ha
    · exact hkm a ha
    · exact hko a ha
theorem Instr.encodeAll_builds (is : List Instr) (h : ∀ a ∈ Instr.accessesAll is, R a.id a.sort) :
    Builds R T bound (Instr.encodeAll is) fun K ts =>
      Instr.termAll is = .ok ts ∧ ∀ a ∈ Instr.accessesAll is, KnownValue R K a.id := by
  match is with
  | [] => exact .pure fun K => ⟨rfl, by simp [Instr.accessesAll]⟩
  | i :: is =>
    refine .bind (i.encode_builds fun a ha => h a (by simp [Instr.accessesAll, ha])) fun t _ _ =>
      .bind (encodeAll_builds is fun a ha => h a (by simp [Instr.accessesAll, ha])) fun ts _ _ => .pure ?_
    rintro K ⟨hts, hks⟩ ⟨ht, hk⟩
    refine ⟨bind_eq_ok.2 ⟨t, ht, bind_eq_ok.2 ⟨ts, hts, rfl⟩⟩, fun a ha => ?_⟩
    rcases List.mem_append.1 ha with ha | ha
    · exact hk a ha
    · exact hks a ha
end

/-- A guard that has a term, and whose accesses have known constants. -/
structure Event.GuardKnown (R : Nat → TermSort → Prop) (K : String → TermSort → Prop) (e : Event) :
    Prop where
  encoded : ∃ g, e.guardTerm = .ok g
  accesses : ∀ a ∈ e.guardAccesses, KnownValue R K a.id

theorem Event.guard?_builds (e : Event) (h : ∀ a ∈ e.guardAccesses, R a.id a.sort) :
    Builds R T bound e.guard? fun K g => e.guardTerm = .ok g ∧ e.GuardKnown R K := by
  obtain ⟨access, condition, payload⟩ := e
  cases condition with
  | none => exact .pure fun K => ⟨rfl, ⟨none, rfl⟩, by simp [guardAccesses]⟩
  | some c =>
    refine .map ((c.encode_builds h).mono ?_)
    rintro K t ⟨ht, hk⟩
    have hg : Event.guardTerm ⟨access, some c, payload⟩ = .ok (some t) := by
      show some <$> c.term = _
      rw [ht]
      rfl
    exact ⟨hg, ⟨some t, hg⟩, hk⟩

/-- A payload that has a term, and whose accesses have known constants, as has the write itself. -/
structure Event.PayloadKnown (R : Nat → TermSort → Prop) (K : String → TermSort → Prop) (e : Event) :
    Prop where
  encoded : ∃ p, e.payloadTerm = .ok p
  accesses : ∀ a ∈ e.payload.accesses, KnownValue R K a.id
  value : ∀ t, e.payloadTerm = .ok (some t) → KnownValue R K e.id

theorem Event.stored?_builds (e : Event) (h : ∀ a ∈ e.payload.accesses, R a.id a.sort) :
    Builds R T bound e.stored? fun K p =>
      e.payloadTerm = .ok p ∧ ∀ a ∈ e.payload.accesses, KnownValue R K a.id := by
  obtain ⟨⟨id, kind, shape, addr⟩, condition, payload⟩ := e
  cases payload with
  | none => exact .pure fun K => ⟨rfl, by simp [Payload.accesses]⟩
  | value v =>
    cases shape with
    | scalar ty =>
      refine .map ((v.encode_builds h).mono ?_)
      rintro K t ⟨ht, hk⟩
      refine ⟨?_, hk⟩
      show some <$> v.term = _
      rw [ht]
      rfl
    | array ty =>
      refine .bind (v.encode_builds h) fun t _ _ => .pure ?_
      rintro K ⟨ht, hk⟩
      exact ⟨bind_eq_ok.2 ⟨t, ht, rfl⟩, hk⟩
  | store m o v =>
    refine .bind (m.encode_builds fun a ha => h a (by simp [Payload.accesses, ha])) fun x _ _ =>
      .bind (o.encode_builds fun a ha => h a (by simp [Payload.accesses, ha])) fun y _ _ =>
      .bind (.ofExcept (Q := fun _ k => indexTerm y = .ok k) fun k hk _ => hk) fun k _ _ =>
      .bind (v.encode_builds fun a ha => h a (by simp [Payload.accesses, ha])) fun z _ _ => .pure ?_
    rintro K ⟨hz, hkv⟩ hk ⟨hy, hko⟩ ⟨hx, hkm⟩
    refine ⟨bind_eq_ok.2 ⟨x, hx, bind_eq_ok.2 ⟨y, hy, bind_eq_ok.2 ⟨k, hk, bind_eq_ok.2 ⟨z, hz, rfl⟩⟩⟩⟩,
      fun a ha => ?_⟩
    simp only [Payload.accesses, List.mem_append] at ha
    rcases ha with (ha | ha) | ha
    · exact hkm a ha
    · exact hko a ha
    · exact hkv a ha

theorem Event.equation_builds (e : Event) (h : ∀ a ∈ e.payload.accesses, R a.id a.sort)
    (he : R e.id e.sort) :
    Builds R T bound e.equation fun K t => t = e.storeClause ∧ e.PayloadKnown R K := by
  refine .bind (e.stored?_builds h) fun p _ _ => ?_
  cases p with
  | none =>
    refine .pure ?_
    rintro K ⟨hp, hk⟩
    refine ⟨by rw [storeClause, hp], ⟨none, hp⟩, hk, fun t ht => ?_⟩
    rw [hp] at ht
    cases ht
  | some v =>
    refine .bind (constant_builds he) fun t _ _ => .pure ?_
    rintro K ⟨rfl, hv⟩ ⟨hp, hk⟩
    refine ⟨?_, ⟨some v, hp⟩, hk, fun _ _ => hv⟩
    rw [storeClause, hp]
    rfl

/-! ### Order -/

/-- What a relation may ask for: its events' clocks, and constants at the sorts of accesses. -/
structure Relation.Requests (rel : Relation) (R : Nat → TermSort → Prop) (T : Nat → Prop) : Prop where
  clock : ∀ e ∈ rel.events, T e.id
  value : ∀ e ∈ rel.events, R e.id e.sort
  guard : ∀ e ∈ rel.events, ∀ a ∈ e.guardAccesses, R a.id a.sort
  payload : ∀ e ∈ rel.events, ∀ a ∈ e.payload.accesses, R a.id a.sort

/-- A relation may ask for everything. -/
theorem Relation.requests_any (rel : Relation) : rel.Requests (fun _ _ => True) fun _ => True :=
  ⟨fun _ _ => trivial, fun _ _ => trivial, fun _ _ _ _ => trivial, fun _ _ _ _ => trivial⟩

/-- A read and the writes it may see, with known symbols. -/
structure Relation.ReadKnown (rel : Relation) (R : Nat → TermSort → Prop) (K : String → TermSort → Prop)
    (r : Event) : Prop where
  clock : K (clockName r.id) .int
  value : KnownValue R K r.id
  guard : r.GuardKnown R K
  write_clock : ∀ w ∈ rel.find r.zone (·.isWrite), K (clockName w.id) .int
  write_value : ∀ w ∈ rel.find r.zone (·.isWrite), KnownValue R K w.id
  write_guard : ∀ w ∈ rel.find r.zone (·.isWrite), w.GuardKnown R K
  write_sort : ∀ w ∈ rel.find r.zone (·.isWrite), w.sort = r.sort

/-- All symbols in the formula of a relation are known, and all its instructions have terms. -/
structure Relation.Known (rel : Relation) (R : Nat → TermSort → Prop) (K : String → TermSort → Prop) :
    Prop where
  write : ∀ w ∈ rel.writes, w.PayloadKnown R K
  read : ∀ r ∈ rel.reads, r.zone.isBottom = false → rel.ReadKnown R K r
  serial : ∀ atom ∈ rel.atoms, 2 ≤ (rel.find atom (·.isWrite)).length →
    ∀ w ∈ rel.find atom (·.isWrite), K (clockName w.id) .int
  triple : ∀ p ∈ allFrTriples rel, K (clockName p.1.id) .int ∧ K (clockName p.2.1.id) .int ∧
    K (clockName p.2.2.id) .int ∧ p.2.1.GuardKnown R K

section
variable {rel : Relation} (hreq : rel.Requests R T)
include hreq

theorem rfPair_builds {r w : Event} (hw : w ∈ rel.events) {guard : Option Term}
    (hg : r.guardTerm = .ok guard) :
    Builds R T bound (rfPair r r.clockTerm r.valueTerm guard w) fun K p =>
      p = (seesClause r w, seesTerm w.toAccess r.toAccess) ∧
        K (clockName w.id) .int ∧ KnownValue R K w.id ∧ w.GuardKnown R K ∧ w.sort = r.sort := by
  unfold rfPair
  split
  · next hsort =>
    refine .bind (readFrom_builds w.toAccess r.toAccess) fun rf _ _ =>
      .bind (clock_builds (hreq.clock w hw)) fun clk _ _ =>
      .bind (w.guard?_builds (hreq.guard w hw)) fun g _ _ =>
      .bind (constant_builds (hreq.value w hw)) fun v _ _ => .pure ?_
    rintro K ⟨rfl, hv⟩ ⟨hwg, hgk⟩ ⟨rfl, hc⟩ rfl
    refine ⟨?_, hc, hv, hgk, hsort⟩
    rw [seesClause, Event.guardTerms_eq hwg, Event.guardTerms_eq hg]
    rfl
  · exact .throw

theorem rfRead_builds {r : Event} (hr : r ∈ rel.events) :
    Builds R T bound (rfRead rel r) fun K ts =>
      ts = readClauses rel r ∧ (r.zone.isBottom = false → rel.ReadKnown R K r) := by
  unfold rfRead readClauses
  split
  · next hb => exact .pure fun K => ⟨rfl, fun hn => absurd hb (by simp [hn])⟩
  · refine .bind (clock_builds (hreq.clock r hr)) fun clk _ hclk => ?_
    obtain ⟨rfl, -⟩ := hclk
    refine .bind (constant_builds (hreq.value r hr)) fun v _ hv => ?_
    obtain ⟨rfl, -⟩ := hv
    refine .bind (r.guard?_builds (hreq.guard r hr)) fun g _ hg => ?_
    refine .bind (.mapM fun w hw => rfPair_builds hreq (Relation.mem_find.1 hw).1 hg.1) fun ps _ _ =>
      .pure ?_
    rintro K ⟨rfl, hws⟩ ⟨hgt, hgk⟩ ⟨-, hv⟩ ⟨-, hc⟩
    refine ⟨?_, fun _ => ⟨hc, hv, hgk, fun w hw => (hws w hw).1, fun w hw => (hws w hw).2.1,
      fun w hw => (hws w hw).2.2.1, fun w hw => (hws w hw).2.2.2⟩⟩
    rw [sourceClause, Event.guardTerms_eq hgt, List.map_map, List.map_map]
    cases g <;> rfl

theorem encodeRf_builds :
    Builds R T bound (encodeRf rel) fun K t => t = .conj (rel.reads.map (readClauses rel)).flatten ∧
      ∀ r ∈ rel.reads, r.zone.isBottom = false → rel.ReadKnown R K r := by
  refine .bind (.mapM fun r hr => rfRead_builds hreq (List.mem_filter.1 hr).1) fun ts _ _ => .pure ?_
  rintro K ⟨rfl, hk⟩
  exact ⟨rfl, hk⟩

theorem wsAtom_builds (atom : Zone) :
    Builds R T bound (liftM (wsAtom rel atom)) fun K t => t = serialClause rel atom ∧
      (2 ≤ (rel.find atom (·.isWrite)).length →
        ∀ w ∈ rel.find atom (·.isWrite), K (clockName w.id) .int) := by
  unfold wsAtom serialClause
  dsimp only
  split
  · next h => exact .pure fun K => ⟨rfl, fun h' => absurd h (by omega)⟩
  · have hmap : Builds R T bound
        (liftM ((rel.find atom (·.isWrite)).mapM fun w => Symbols.clock w.id)) fun K ts =>
          ts = (rel.find atom (·.isWrite)).map (fun w => w.clockTerm) ∧
            ∀ w ∈ rel.find atom (·.isWrite), K (clockName w.id) .int := by
      rw [Builds.lift_mapM]
      exact .mapM fun w hw => clock_builds (hreq.clock w (Relation.mem_find.1 hw).1)
    rw [Builds.lift_bind]
    refine .bind hmap fun ts _ _ => .pure ?_
    rintro K ⟨rfl, hk⟩
    exact ⟨rfl, fun _ => hk⟩

theorem encodeWs_builds :
    Builds R T bound (liftM (encodeWs rel)) fun K t =>
      t = .conj ((rel.atoms.map (serialClause rel)).filterMap id) ∧
        ∀ atom ∈ rel.atoms, 2 ≤ (rel.find atom (·.isWrite)).length →
          ∀ w ∈ rel.find atom (·.isWrite), K (clockName w.id) .int := by
  have hmap : Builds R T bound (liftM (rel.atoms.mapM (wsAtom rel))) fun K ts =>
      ts = rel.atoms.map (serialClause rel) ∧
        ∀ atom ∈ rel.atoms, 2 ≤ (rel.find atom (·.isWrite)).length →
          ∀ w ∈ rel.find atom (·.isWrite), K (clockName w.id) .int := by
    rw [Builds.lift_mapM]
    exact .mapM fun atom _ => wsAtom_builds hreq atom
  rw [encodeWs, Builds.lift_bind]
  refine .bind hmap fun ts _ _ => .pure ?_
  rintro K ⟨rfl, hk⟩
  exact ⟨rfl, hk⟩

theorem frClause_builds {x y r : Event} (hx : x ∈ rel.events) (hy : y ∈ rel.events)
    (hr : r ∈ rel.events) :
    Builds R T bound (frClause (x, y, r)) fun K t => t = replaceClause (x, y, r) ∧
      K (clockName x.id) .int ∧ K (clockName y.id) .int ∧ K (clockName r.id) .int ∧
        y.GuardKnown R K := by
  refine .bind (clock_builds (hreq.clock x hx)) fun cx _ _ =>
    .bind (clock_builds (hreq.clock y hy)) fun cy _ _ =>
    .bind (clock_builds (hreq.clock r hr)) fun cr _ _ =>
    .bind (readFrom_builds x.toAccess r.toAccess) fun rf _ _ =>
    .bind (y.guard?_builds (hreq.guard y hy)) fun g _ _ => .pure ?_
  rintro K ⟨hg, hgk⟩ rfl ⟨rfl, hkr⟩ ⟨rfl, hky⟩ ⟨rfl, hkx⟩
  refine ⟨?_, hkx, hky, hkr, hgk⟩
  rw [replaceClause, Event.guardTerms_eq hg]
  rfl

theorem encodeFr_builds :
    Builds R T bound (encodeFr rel) fun K t => t = .conj ((allFrTriples rel).map replaceClause) ∧
      ∀ p ∈ allFrTriples rel, K (clockName p.1.id) .int ∧ K (clockName p.2.1.id) .int ∧
        K (clockName p.2.2.id) .int ∧ p.2.1.GuardKnown R K := by
  have hclause : ∀ p ∈ allFrTriples rel, Builds R T bound (frClause p) fun K t =>
      t = replaceClause p ∧ K (clockName p.1.id) .int ∧ K (clockName p.2.1.id) .int ∧
        K (clockName p.2.2.id) .int ∧ p.2.1.GuardKnown R K := by
    rintro ⟨x, y, r⟩ hp
    obtain ⟨hx, hy, hr, -⟩ := mem_allFrTriples.1 hp
    exact frClause_builds hreq (Relation.mem_writes.1 hx).1 (Relation.mem_writes.1 hy).1
      (Relation.mem_reads.1 hr).1
  refine .bind (.mapM hclause) fun ts _ _ => .pure ?_
  rintro K ⟨rfl, hk⟩
  exact ⟨rfl, hk⟩

theorem encodeWrites_builds :
    Builds R T bound (encodeWrites rel) fun K t => t = .conj (rel.writes.map Event.storeClause) ∧
      ∀ w ∈ rel.writes, w.PayloadKnown R K := by
  have hclause : ∀ w ∈ rel.writes, Builds R T bound w.equation fun K t =>
      t = w.storeClause ∧ w.PayloadKnown R K := by
    intro w hw
    have hw := (Relation.mem_writes.1 hw).1
    exact w.equation_builds (hreq.payload w hw) (hreq.value w hw)
  refine .bind (.mapM hclause) fun ts _ _ => .pure ?_
  rintro K ⟨rfl, hk⟩
  exact ⟨rfl, hk⟩

/-- **All parts together give the formula of the relation.** -/
theorem encodeParts_builds :
    Builds R T bound (encodeParts rel) fun K t => t = formula rel ∧ rel.Known R K := by
  refine .bind (encodeWrites_builds hreq) fun values _ _ => .bind (encodeRf_builds hreq) fun rf _ _ =>
    .bind (encodeWs_builds hreq) fun ws _ _ => .bind (encodeFr_builds hreq) fun fr _ _ => .pure ?_
  rintro K ⟨rfl, htriple⟩ ⟨rfl, hserial⟩ ⟨rfl, hread⟩ ⟨rfl, hwrite⟩
  exact ⟨rfl, hwrite, hread, hserial, htriple⟩

end

/-! ### Scripts -/

/-- The script of a relation: its declarations, and its formula with the bounds of the declared clocks. -/
structure Encoded (R : Nat → TermSort → Prop) (T : Nat → Prop) (bound : Int) (rel : Relation)
    (script : Smt.Script) : Prop where
  known : ∀ K : String → TermSort → Prop,
    (∀ n t, .const n t ∈ script.declarations → K n t) → rel.Known R K
  declared : ∀ n t, .const n t ∈ script.declarations →
    (∃ id, n = valueName id ∧ R id t) ∨ ∃ id, n = clockName id ∧ t = .int ∧ T id
  mem_assertions : ∀ t, t ∈ script.assertions ↔
    t = formula rel ∨
      ∃ id, .const (clockName id) .int ∈ script.declarations ∧ t = clockBound bound id

/-- **A script that is there holds the formula of its relation and is closed.** -/
theorem encode_encoded {rel : Relation} (hreq : rel.Requests R T) {c : Config} {script : Smt.Script}
    (h : encode rel c = .ok script) : Encoded R T c.clockLowerBound rel script := by
  unfold encode at h
  split at h
  · cases h
  · next t s hrun =>
    cases h
    obtain ⟨hs, -, hK⟩ := encodeParts_builds hreq _ t s (Symbols.tidy_ofConfig c) hrun
    obtain ⟨rfl, -⟩ := hK s.Known fun _ _ hk => hk
    -- the clocks that were noted are the declared ones
    have hclock : ∀ id, id ∈ s.clocks ↔ s.Known (clockName id) .int := by
      refine fun id => ⟨hs.clock_known id, fun hk => ?_⟩
      rcases hs.declared _ hk with ⟨i, sort, heq, -⟩ | ⟨i, hi, heq⟩ | heq
      · exact absurd (Declaration.const.inj heq).1.symm (valueName_ne_clockName i id)
      · rw [clockName_inj.1 (Declaration.const.inj heq).1]
        exact hi
      · cases heq
    refine ⟨fun K hk => (hK K hk).2, fun n t hd => ?_, fun t => ?_⟩
    · rcases hs.declared _ hd with ⟨i, sort, heq, hi⟩ | ⟨i, hi, heq⟩ | heq
      · obtain ⟨rfl, rfl⟩ := Declaration.const.inj heq
        exact .inl ⟨i, rfl, hi⟩
      · obtain ⟨rfl, rfl⟩ := Declaration.const.inj heq
        exact .inr ⟨i, rfl, rfl, hs.clock_of i hi⟩
      · cases heq
    · show t ∈ s.script.assertions ++ [formula rel] ↔ _
      rw [List.mem_append, hs.mem_assertions t, List.mem_singleton, or_comm]
      refine or_congr_right (exists_congr fun id => ?_)
      rw [hclock id]
      rfl

end

end Symex.Memory
