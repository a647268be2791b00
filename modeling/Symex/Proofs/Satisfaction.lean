import Symex.Smt.Script

/-!
When a model makes a term true. Evaluation can fail, so each connective has two readings: what follows
when the term holds, whatever the model is, and when it holds if its operands have values.
-/

namespace Symex

/-- A computation in two steps has a result if both have. -/
theorem bind_eq_ok {ε α β : Type} {x : Except ε α} {f : α → Except ε β} {b : β} :
    (x >>= f) = .ok b ↔ ∃ a, x = .ok a ∧ f a = .ok b := by
  cases x with
  | error e => simp [bind, Except.bind]
  | ok a => simp [bind, Except.bind]

theorem map_eq_ok {ε α β : Type} {x : Except ε α} {f : α → β} {b : β} :
    f <$> x = .ok b ↔ ∃ a, x = .ok a ∧ f a = b := by
  cases x with
  | error e => simp [Functor.map, Except.map]
  | ok a => simp [Functor.map, Except.map]

/-- If the result of neither step depends on the state, that of both does not. -/
theorem run_bind_fst {ε σ α β : Type} {x : ExceptT ε (StateM σ) α} {f : α → ExceptT ε (StateM σ) β}
    {r : Except ε α} {g : α → Except ε β} (hx : ∀ s, (x.run.run s).1 = r)
    (hf : ∀ a s, ((f a).run.run s).1 = g a) (s : σ) : ((x >>= f).run.run s).1 = r >>= g := by
  show (ExceptT.bindCont f (x.run.run s).1 (x.run.run s).2).1 = _
  rw [hx s]
  cases r with
  | error e => rfl
  | ok a => exact hf a _

theorem eq_ok_of_toOption {ε α : Type} {x : Except ε α} {a : α} (h : x.toOption = some a) : x = .ok a := by
  cases x with
  | error e => cases h
  | ok b =>
    cases h
    rfl

/-- Why a computation fails, if it does. -/
def failure? {ε α : Type} : Except ε α → Option ε
  | .ok _ => none
  | .error e => some e

namespace Smt

theorem Value.asBool_eq_ok {v : Value} {b : Bool} : v.asBool = .ok b ↔ v = .bool b := by
  cases v <;> simp [asBool]

theorem Value.asInt_eq_ok {v : Value} {i : Int} : v.asInt = .ok i ↔ v = .int i := by
  cases v <;> simp [asInt]

theorem pairwiseDistinct_iff {vs : List Value} : pairwiseDistinct vs = true ↔ vs.Nodup := by
  induction vs with
  | nil => simp [pairwiseDistinct]
  | cons v vs ih =>
    rw [pairwiseDistinct, Bool.and_eq_true, ih, List.nodup_cons, List.all_eq_true]
    refine and_congr_left fun _ => ⟨fun h hv => ?_, fun h x hx => ?_⟩
    · simpa using h v hv
    · simpa using fun hxv : x = v => h (hxv ▸ hx)

namespace Model

variable {m : Model} {t a b : Term} {ts : List Term}

/-- A term that is true. -/
def Holds (m : Model) (t : Term) : Prop := m.eval t = .ok (.bool true)

/-- A term that is true or false. -/
def Decided (m : Model) (t : Term) : Prop := ∃ b, m.eval t = .ok (.bool b)

theorem Holds.decided (h : m.Holds t) : m.Decided t := ⟨true, h⟩

/-- An operand that has to be a boolean. -/
theorem bool_bind_eq_ok {α : Type} {f : Bool → Except Error α} {r : α} :
    (m.eval t >>= fun v => v.asBool >>= f) = .ok r ↔ ∃ b, m.eval t = .ok (.bool b) ∧ f b = .ok r := by
  simp only [bind_eq_ok, Value.asBool_eq_ok]
  constructor
  · rintro ⟨v, hv, b, rfl, h⟩
    exact ⟨b, hv, h⟩
  · rintro ⟨b, hb, h⟩
    exact ⟨_, hb, b, rfl, h⟩

/-- An operand that has to be an integer. -/
theorem int_bind_eq_ok {α : Type} {f : Int → Except Error α} {r : α} :
    (m.eval t >>= fun v => v.asInt >>= f) = .ok r ↔ ∃ i, m.eval t = .ok (.int i) ∧ f i = .ok r := by
  simp only [bind_eq_ok, Value.asInt_eq_ok]
  constructor
  · rintro ⟨v, hv, i, rfl, h⟩
    exact ⟨i, hv, h⟩
  · rintro ⟨i, hi, h⟩
    exact ⟨_, hi, i, rfl, h⟩

theorem satisfies_eq_ok {b : Bool} : m.satisfies t = .ok b ↔ m.eval t = .ok (.bool b) := by
  simp [satisfies, bind_eq_ok, Value.asBool_eq_ok]

theorem evalBools_cons {bs : List Bool} : m.evalBools (t :: ts) = .ok bs ↔
    ∃ b bs', m.eval t = .ok (.bool b) ∧ m.evalBools ts = .ok bs' ∧ bs = b :: bs' := by
  rw [evalBools, bool_bind_eq_ok]
  constructor
  · rintro ⟨b, hb, h⟩
    obtain ⟨bs', hbs, h⟩ := bind_eq_ok.1 h
    cases h
    exact ⟨b, bs', hb, hbs, rfl⟩
  · rintro ⟨b, bs', hb, hbs, rfl⟩
    exact ⟨b, hb, bind_eq_ok.2 ⟨bs', hbs, rfl⟩⟩

/-- All terms of a list are true if and only if the list evaluates to true alone. -/
theorem forall_holds_iff :
    (∀ t ∈ ts, m.Holds t) ↔ ∃ bs, m.evalBools ts = .ok bs ∧ bs.all id = true := by
  induction ts with
  | nil => simp [evalBools]
  | cons t ts ih =>
    rw [List.forall_mem_cons, ih]
    constructor
    · rintro ⟨ht, bs, hbs, hall⟩
      exact ⟨true :: bs, evalBools_cons.2 ⟨true, bs, ht, hbs, rfl⟩, by simpa using hall⟩
    · rintro ⟨bs, h, hall⟩
      obtain ⟨b, bs', hb, hbs, rfl⟩ := evalBools_cons.1 h
      obtain ⟨rfl, hall⟩ : b = true ∧ bs'.all id = true := by simpa using hall
      exact ⟨hb, bs', hbs, hall⟩

theorem holds_and : m.Holds (.and ts) ↔ ∀ t ∈ ts, m.Holds t := by
  rw [forall_holds_iff]
  constructor
  · intro h
    obtain ⟨bs, hbs, h⟩ := bind_eq_ok.1 h
    cases h' : bs.all id with
    | true => exact ⟨bs, hbs, h'⟩
    | false =>
      rw [h'] at h
      cases h
  · rintro ⟨bs, hbs, hall⟩
    show (m.evalBools ts >>= _) = _
    rw [hbs, ← hall]
    rfl

/-- A conjunction holds if and only if every part does. -/
theorem holds_conj : m.Holds (.conj ts) ↔ ∀ t ∈ ts, m.Holds t := by
  unfold Term.conj
  split
  · simp
  · exact holds_and

theorem decided_evalBools (h : ∀ t ∈ ts, m.Decided t) :
    ∃ bs, m.evalBools ts = .ok bs ∧ (bs.any id = true ↔ ∃ t ∈ ts, m.Holds t) ∧
      (bs.all id = true ↔ ∀ t ∈ ts, m.Holds t) := by
  induction ts with
  | nil => exact ⟨[], rfl, by simp⟩
  | cons t ts ih =>
    obtain ⟨b, hb⟩ := h t (by simp)
    obtain ⟨bs, hbs, hany, hall⟩ := ih fun t ht => h t (List.mem_cons_of_mem _ ht)
    have ht : m.Holds t ↔ b = true := by
      unfold Holds
      rw [hb]
      simp
    refine ⟨b :: bs, ?_, ?_, ?_⟩
    · exact evalBools_cons.2 ⟨b, bs, hb, hbs, rfl⟩
    · simp only [List.any_cons, Bool.or_eq_true, hany, List.mem_cons, exists_eq_or_imp, ht, id]
    · simp only [List.all_cons, Bool.and_eq_true, hall, List.mem_cons, forall_eq_or_imp, ht, id]

theorem decided_conj (h : ∀ t ∈ ts, m.Decided t) : m.Decided (.conj ts) := by
  unfold Term.conj
  split
  · exact h _ (by simp)
  · obtain ⟨bs, hbs, -⟩ := decided_evalBools h
    refine ⟨bs.all id, ?_⟩
    show (m.evalBools ts >>= _) = _
    rw [hbs]
    rfl

theorem exists_holds_of_any {bs : List Bool} (hbs : m.evalBools ts = .ok bs) (h : bs.any id = true) :
    ∃ t ∈ ts, m.Holds t := by
  induction ts generalizing bs with
  | nil =>
    cases hbs
    cases h
  | cons t ts ih =>
    obtain ⟨b, bs', hb, hbs', rfl⟩ := evalBools_cons.1 hbs
    rcases Bool.or_eq_true _ _ ▸ h with rfl | h
    · exact ⟨t, by simp, hb⟩
    · obtain ⟨u, hu, hh⟩ := ih hbs' h
      exact ⟨u, List.mem_cons_of_mem _ hu, hh⟩

/-- A disjunction that holds has a part that does. -/
theorem exists_holds_of_disj (h : m.Holds (.disj ts)) : ∃ t ∈ ts, m.Holds t := by
  unfold Term.disj at h
  split at h
  · exact ⟨_, by simp, h⟩
  · obtain ⟨bs, hbs, h⟩ := bind_eq_ok.1 h
    refine exists_holds_of_any hbs ?_
    simpa [pure, Except.pure] using h

theorem holds_disj (h : ∀ t ∈ ts, m.Decided t) : m.Holds (.disj ts) ↔ ∃ t ∈ ts, m.Holds t := by
  refine ⟨exists_holds_of_disj, fun hex => ?_⟩
  unfold Term.disj
  split
  · simpa using hex
  · obtain ⟨bs, hbs, hany, -⟩ := decided_evalBools h
    show (m.evalBools ts >>= _) = _
    rw [hbs, ← hany.2 hex]
    rfl

/-- An implication holds if its premise is false, or both sides are true. -/
theorem holds_implies_iff :
    m.Holds (.implies a b) ↔ m.eval a = .ok (.bool false) ∨ m.Holds a ∧ m.Holds b := by
  rw [Holds, eval, bool_bind_eq_ok]
  constructor
  · rintro ⟨x, hx, h⟩
    cases x with
    | false => exact .inl hx
    | true =>
      rw [if_pos rfl, bool_bind_eq_ok] at h
      obtain ⟨y, hy, h⟩ := h
      cases h
      exact .inr ⟨hx, hy⟩
  · rintro (h | ⟨ha, hb⟩)
    · exact ⟨false, h, rfl⟩
    · exact ⟨true, ha, bool_bind_eq_ok.2 ⟨true, hb, rfl⟩⟩

theorem Holds.mp (h : m.Holds (.implies a b)) (ha : m.Holds a) : m.Holds b := by
  rcases holds_implies_iff.1 h with h | h
  · rw [show m.eval a = _ from ha] at h
    cases h
  · exact h.2

theorem holds_implies (ha : m.Decided a) : m.Holds (.implies a b) ↔ (m.Holds a → m.Holds b) := by
  refine ⟨Holds.mp, fun h => holds_implies_iff.2 ?_⟩
  obtain ⟨x, hx⟩ := ha
  cases x with
  | false => exact .inl hx
  | true => exact .inr ⟨hx, h hx⟩

/-- The premise of an implication that holds is decided. -/
theorem decided_of_implies (h : m.Holds (.implies a b)) : m.Decided a := by
  rcases holds_implies_iff.1 h with h | h
  · exact ⟨false, h⟩
  · exact h.1.decided

theorem eval_eq {x y : Value} (ha : m.eval a = .ok x) (hb : m.eval b = .ok y) :
    m.eval (.eq a b) = .ok (.bool (x = y)) := by
  rw [eval]
  exact bind_eq_ok.2 ⟨x, ha, bind_eq_ok.2 ⟨y, hb, rfl⟩⟩

theorem holds_eq : m.Holds (.eq a b) ↔ ∃ v, m.eval a = .ok v ∧ m.eval b = .ok v := by
  constructor
  · intro h
    obtain ⟨x, hx, h⟩ := bind_eq_ok.1 h
    obtain ⟨y, hy, h⟩ := bind_eq_ok.1 h
    obtain rfl : x = y := by simpa [pure, Except.pure] using h
    exact ⟨x, hx, hy⟩
  · rintro ⟨v, ha, hb⟩
    simpa [Holds] using eval_eq ha hb

/-- Two terms that have values are equal if and only if the values are. -/
theorem holds_eq_iff {x y : Value} (ha : m.eval a = .ok x) (hb : m.eval b = .ok y) :
    m.Holds (.eq a b) ↔ x = y := by
  rw [Holds, eval_eq ha hb]
  simp

theorem eval_lt {x y : Int} (ha : m.eval a = .ok (.int x)) (hb : m.eval b = .ok (.int y)) :
    m.eval (.lt a b) = .ok (.bool (x < y)) := by
  rw [eval]
  exact int_bind_eq_ok.2 ⟨x, ha, int_bind_eq_ok.2 ⟨y, hb, rfl⟩⟩

theorem holds_gt : m.Holds (.gt a b) ↔
    ∃ x y : Int, m.eval a = .ok (.int x) ∧ m.eval b = .ok (.int y) ∧ y < x := by
  rw [Holds, eval, int_bind_eq_ok]
  simp only [int_bind_eq_ok, pure, Except.pure, Except.ok.injEq, Value.bool.injEq, decide_eq_true_eq,
    exists_and_left, gt_iff_lt]

theorem holds_lt : m.Holds (.lt a b) ↔
    ∃ x y : Int, m.eval a = .ok (.int x) ∧ m.eval b = .ok (.int y) ∧ x < y := by
  rw [Holds, eval, int_bind_eq_ok]
  simp only [int_bind_eq_ok, pure, Except.pure, Except.ok.injEq, Value.bool.injEq, decide_eq_true_eq,
    exists_and_left]

theorem evalAll_map {α : Type} {l : List α} {f : α → Term} {value : α → Value}
    (h : ∀ x ∈ l, m.eval (f x) = .ok (value x)) : m.evalAll (l.map f) = .ok (l.map value) := by
  induction l with
  | nil => rfl
  | cons x l ih =>
    rw [List.map_cons, evalAll, h x (by simp), ih fun y hy => h y (List.mem_cons_of_mem _ hy)]
    rfl

theorem evalBools_map {α : Type} {l : List α} {f : α → Term} {value : α → Bool}
    (h : ∀ x ∈ l, m.eval (f x) = .ok (.bool (value x))) :
    m.evalBools (l.map f) = .ok (l.map value) := by
  induction l with
  | nil => rfl
  | cons x l ih =>
    rw [List.map_cons, evalBools_cons]
    exact ⟨_, _, h x (by simp), ih fun y hy => h y (List.mem_cons_of_mem _ hy), rfl⟩

theorem eval_conj {α : Type} {l : List α} {f : α → Term} {value : α → Bool}
    (h : ∀ x ∈ l, m.eval (f x) = .ok (.bool (value x))) :
    m.eval (.conj (l.map f)) = .ok (.bool (l.all value)) := by
  match l, h with
  | [x], h => simpa [Term.conj] using h x (by simp)
  | [], _ => rfl
  | x :: y :: l, h =>
    show (m.evalBools ((x :: y :: l).map f) >>= _) = _
    refine bind_eq_ok.2 ⟨_, evalBools_map h, ?_⟩
    rw [List.all_map]
    rfl

theorem eval_disj {α : Type} {l : List α} {f : α → Term} {value : α → Bool}
    (h : ∀ x ∈ l, m.eval (f x) = .ok (.bool (value x))) :
    m.eval (.disj (l.map f)) = .ok (.bool (l.any value)) := by
  match l, h with
  | [x], h => simpa [Term.disj] using h x (by simp)
  | [], _ => rfl
  | x :: y :: l, h =>
    show (m.evalBools ((x :: y :: l).map f) >>= _) = _
    refine bind_eq_ok.2 ⟨_, evalBools_map h, ?_⟩
    rw [List.any_map]
    rfl

theorem holds_distinct {vs : List Value} (h : m.evalAll ts = .ok vs) :
    m.Holds (.distinct ts) ↔ vs.Nodup := by
  rw [← pairwiseDistinct_iff]
  show (m.evalAll ts >>= _) = _ ↔ _
  rw [h]
  simp [bind, Except.bind, pure, Except.pure]

end Model

/-- A script holds if and only if every assertion does. -/
theorem Script.holds_eq_ok_true {s : Script} {m : Model} :
    s.holds m = .ok true ↔ ∀ t ∈ s.assertions, m.Holds t := by
  unfold holds
  induction s.assertions with
  | nil => simp [allHold]
  | cons t ts ih =>
    rw [List.forall_mem_cons, ← ih, allHold, bind_eq_ok]
    constructor
    · rintro ⟨b, hb, h⟩
      cases b with
      | false => cases h
      | true => exact ⟨Model.satisfies_eq_ok.1 hb, h⟩
    · rintro ⟨ht, h⟩
      exact ⟨true, Model.satisfies_eq_ok.2 ht, h⟩

end Smt

end Symex
