import Symex.Proofs.Satisfaction

/-!
A script and its formula. A script is checked assertion by assertion, up to the first one that is false or
has no truth value; its formula is evaluated as a whole, and fails if any assertion does. Both depend on
the same thing only: the truth values of the assertions up to the first that has none. So they come to
the same truth value or the same failure, unless an assertion is false before the first that has none:
then the check has its answer and the formula none.
-/

namespace Symex.Smt

namespace Model

variable {m : Model} {t : Term} {ts us before : List Term} {bs : List Bool} {e : Error}

/-! ### The first term without a truth value -/

/-- Of terms that have truth values one is false, unless all are true. -/
theorem all_eq_false_iff (h : m.evalBools ts = .ok bs) :
    bs.all id = false ↔ ∃ t ∈ ts, m.eval t = .ok (.bool false) := by
  induction ts generalizing bs with
  | nil =>
    cases h
    simp
  | cons t ts ih =>
    obtain ⟨b, bs, hb, hbs, rfl⟩ := evalBools_cons.1 h
    simp only [List.mem_cons, exists_eq_or_imp, ← ih hbs, hb]
    cases b <;> simp

/-- The first of some terms that has no truth value, for a certain reason, comes after certain terms. -/
structure StopsAfter (m : Model) (before ts : List Term) (e : Error) : Prop where
  decided : ∀ u ∈ before, m.Decided u
  stops : ∃ t after, ts = before ++ t :: after ∧ m.satisfies t = .error e

theorem StopsAfter.cons (ht : m.Decided t) (h : m.StopsAfter before ts e) :
    m.StopsAfter (t :: before) (t :: ts) e where
  decided := List.forall_mem_cons.2 ⟨ht, h.decided⟩
  stops := by
    obtain ⟨u, after, rfl, hu⟩ := h.stops
    exact ⟨u, after, rfl, hu⟩

/-- **All terms have truth values, or there is a first that has none.** -/
theorem decided_or_stops (m : Model) (ts : List Term) :
    (∀ t ∈ ts, m.Decided t) ∨ ∃ before e, m.StopsAfter before ts e := by
  induction ts with
  | nil => exact .inl (by simp)
  | cons t ts ih =>
    cases ht : m.satisfies t with
    | error e => exact .inr ⟨[], e, by simp, t, ts, rfl, ht⟩
    | ok b =>
      have hdecided : m.Decided t := ⟨b, satisfies_eq_ok.1 ht⟩
      rcases ih with h | ⟨before, e, h⟩
      · exact .inl (List.forall_mem_cons.2 ⟨hdecided, h⟩)
      · exact .inr ⟨t :: before, e, h.cons hdecided⟩

/-! ### Evaluation as a whole -/

theorem evalBools_append (h : m.evalBools ts = .ok bs) :
    m.evalBools (ts ++ us) = (bs ++ ·) <$> m.evalBools us := by
  induction ts generalizing bs with
  | nil =>
    cases h
    rw [List.nil_append]
    cases m.evalBools us <;> rfl
  | cons t ts ih =>
    obtain ⟨b, bs, hb, hbs, rfl⟩ := evalBools_cons.1 h
    rw [List.cons_append, evalBools, ih hbs, hb]
    cases m.evalBools us <;> rfl

theorem eval_and_of_evalBools (h : m.evalBools ts = .ok bs) : m.eval (.and ts) = .ok (.bool (bs.all id)) := by
  rw [eval, h]
  rfl

/-- A conjunction fails like the first operand that has no truth value. -/
theorem StopsAfter.eval_and (h : m.StopsAfter before ts e) : m.eval (.and ts) = .error e := by
  obtain ⟨bs, hbs, -⟩ := decided_evalBools h.decided
  obtain ⟨t, after, rfl, ht⟩ := h.stops
  have hafter : m.evalBools (t :: after) = .error e := by
    rw [evalBools_eq_mapM, List.mapM_cons, ht]
    rfl
  rw [eval, evalBools_append hbs, hafter]
  rfl

end Model

/-! ### Evaluation up to the first false assertion -/

namespace Script

variable {m : Model} {ts us before : List Term} {bs : List Bool} {e : Error}

theorem allHold_append (h : m.evalBools ts = .ok bs) :
    allHold m (ts ++ us) = if bs.all id then allHold m us else .ok false := by
  induction ts generalizing bs with
  | nil =>
    cases h
    rfl
  | cons t ts ih =>
    obtain ⟨b, bs, hb, hbs, rfl⟩ := Model.evalBools_cons.1 h
    rw [List.cons_append, allHold, Model.satisfies_eq_ok.2 hb]
    cases b with
    | false => rfl
    | true =>
      rw [List.all_cons, id, Bool.true_and, ← ih hbs]
      rfl

theorem allHold_of_evalBools (h : m.evalBools ts = .ok bs) : allHold m ts = .ok (bs.all id) := by
  rw [← List.append_nil ts, allHold_append h]
  cases bs.all id <;> rfl

/-- The first term without a truth value is reached only if no term before it is false. -/
theorem allHold_of_stops (h : m.StopsAfter before ts e) :
    (allHold m ts = .error e ∨ allHold m ts = .ok false) ∧
      (allHold m ts = .ok false ↔ ∃ t ∈ before, m.eval t = .ok (.bool false)) := by
  obtain ⟨bs, hbs, -⟩ := Model.decided_evalBools h.decided
  obtain ⟨t, after, rfl, ht⟩ := h.stops
  have hrest : allHold m (t :: after) = .error e := by
    rw [allHold, ht]
    rfl
  rw [allHold_append hbs, hrest, ← Model.all_eq_false_iff hbs]
  cases bs.all id <;> simp

/-- If all assertions have truth values, the check and the formula come to the same one. -/
theorem agrees_or_stops (s : Script) (m : Model) :
    (∃ b, m.eval s.formula = .ok (.bool b) ∧ s.holds m = .ok b) ∨
      ∃ before e, m.StopsAfter before s.assertions e := by
  refine (m.decided_or_stops s.assertions).imp_left fun hdecided => ?_
  obtain ⟨bs, hbs, -⟩ := Model.decided_evalBools hdecided
  exact ⟨bs.all id, Model.eval_and_of_evalBools hbs, allHold_of_evalBools hbs⟩

/-- **A script holds like its formula evaluates.** If the formula has a truth value, that is the answer of the
check. If the check says that all assertions are true, so does the formula, and if the check fails, the
formula fails in the same way. Only if an assertion is false before the first that has no truth value,
the check says so and the formula fails. -/
theorem holds_agrees_with_formula (s : Script) (m : Model) :
    (∀ b, m.eval s.formula = .ok (.bool b) → s.holds m = .ok b) ∧
    (s.holds m = .ok true → m.eval s.formula = .ok (.bool true)) ∧
    (∀ e, s.holds m = .error e → m.eval s.formula = .error e) ∧
    ∀ e, s.holds m = .ok false ∧ m.eval s.formula = .error e ↔
      ∃ before, m.StopsAfter before s.assertions e ∧ ∃ t ∈ before, m.eval t = .ok (.bool false) := by
  refine ⟨fun b h => ?_, fun h => Model.holds_and.2 (holds_eq_ok_true.1 h), fun e h => ?_, fun e => ⟨?_, ?_⟩⟩
  · rcases s.agrees_or_stops m with ⟨b', hformula, hholds⟩ | ⟨before, e, hstops⟩
    · cases hformula.symm.trans h
      exact hholds
    · cases hstops.eval_and.symm.trans h
  · rcases s.agrees_or_stops m with ⟨b, -, hholds⟩ | ⟨before, e', hstops⟩
    · cases hholds.symm.trans h
    · rcases (allHold_of_stops hstops).1 with herror | hfalse
      · cases herror.symm.trans h
        exact hstops.eval_and
      · cases hfalse.symm.trans h
  · rintro ⟨hfalse, h⟩
    rcases s.agrees_or_stops m with ⟨b, hformula, -⟩ | ⟨before, e', hstops⟩
    · cases hformula.symm.trans h
    · cases hstops.eval_and.symm.trans h
      exact ⟨before, hstops, (allHold_of_stops hstops).2.1 hfalse⟩
  · rintro ⟨before, hstops, hfalse⟩
    exact ⟨(allHold_of_stops hstops).2.2 hfalse, hstops.eval_and⟩

/-- A script that only asserts. -/
def asserting (ts : List Term) : Script := { logic := "ALL", assertions := ts }

/-- A constant without a value after a true assertion stops the check and the formula; an integer after a false
one stops the formula only, before the constant does. -/
theorem valueless_agrees_with_formula :
    (({} : Model).eval (asserting [.bool true, .bool false]).formula = .ok (.bool false) ∧
      (asserting [.bool true, .bool false]).holds {} = .ok false) ∧
    ((asserting [.bool true]).holds {} = .ok true ∧
      ({} : Model).eval (asserting [.bool true]).formula = .ok (.bool true)) ∧
    ((asserting [.bool true, .const "x" .bool, .bool false]).holds {} = .error (.noValue "x") ∧
      ({} : Model).eval (asserting [.bool true, .const "x" .bool, .bool false]).formula =
        .error (.noValue "x")) ∧
    (asserting [.bool false, .int 3, .const "x" .bool]).holds {} = .ok false ∧
      ({} : Model).eval (asserting [.bool false, .int 3, .const "x" .bool]).formula =
        .error (.sortMismatch .bool .int) := by
  refine ⟨⟨rfl, (holds_agrees_with_formula _ _).1 false rfl⟩, ⟨rfl, (holds_agrees_with_formula _ _).2.1 rfl⟩,
    ⟨rfl, (holds_agrees_with_formula _ _).2.2.1 _ rfl⟩, ((holds_agrees_with_formula _ _).2.2.2 _).2 ?_⟩
  have hstops : ({} : Model).StopsAfter [.bool false] [.bool false, .int 3, .const "x" .bool]
      (.sortMismatch .bool .int) :=
    ⟨List.forall_mem_singleton.2 ⟨false, rfl⟩, .int 3, [.const "x" .bool], rfl, rfl⟩
  exact ⟨_, hstops, .bool false, List.mem_singleton_self _, rfl⟩

end Script

end Symex.Smt
