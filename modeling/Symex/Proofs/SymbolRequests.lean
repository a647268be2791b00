import Symex.Proofs.ClosedScripts
import Symex.Proofs.Support
import Symex.Proofs.WrittenText

/-!
Whole passes as requests for symbols, joins among them. A request is answered by a term over one symbol. The
first request for a symbol declares it and asserts what it is constrained by, and later ones change nothing;
a join is always the first for its symbol. So the requests and the formula say what the script is, and when
a model makes it true.
-/

namespace Symex

open Smt (Term TermSort Declaration Model)

namespace Smt.Term

/-- The name of a constant or of the function that is applied. -/
def symbol? : Term → Option String
  | .const name _ | .apply name _ _ => some name
  | _ => none

/-- A symbol of a name occurs in a term. -/
def HasSymbol (t : Term) (name : String) : Prop := ∃ u, Occurs u t ∧ u.symbol? = some name

variable {t : Term} {name : String}

theorem hasSymbol_iff :
    t.HasSymbol name ↔ t.symbol? = some name ∨ ∃ v ∈ t.operands, v.HasSymbol name := by
  constructor
  · rintro ⟨u, hu, hname⟩
    rcases occurs_iff.1 hu with rfl | ⟨v, hv, hu⟩
    · exact .inl hname
    · exact .inr ⟨v, hv, u, hu, hname⟩
  · rintro (hname | ⟨v, hv, u, hu, hname⟩)
    · exact ⟨t, .self, hname⟩
    · exact ⟨u, .operand hv hu, hname⟩

theorem hasSymbol_leaf (h : t.operands = []) : t.HasSymbol name ↔ t.symbol? = some name := by
  rw [hasSymbol_iff, h]
  simp

theorem hasSymbol_const {c : String} {s : TermSort} : (Term.const c s).HasSymbol name ↔ name = c := by
  rw [hasSymbol_leaf rfl, symbol?, Option.some_inj, eq_comm]

end Smt.Term

namespace Memory

/-! ### Names of joins -/

/-- Name of the clock of a join. -/
def joinName (n : Nat) : String := toString n ++ "_Join"

theorem joinName_inj {m n : Nat} : joinName m = joinName n ↔ m = n := by
  constructor
  · intro h
    have h := congrArg String.toList h
    rw [joinName, joinName, String.toList_append, String.toList_append] at h
    exact (natText_inj (stops_cons.2 rfl) (stops_cons.2 rfl) h).1
  · rintro rfl
    rfl

/-- The name of a join starts with a digit. -/
theorem joinName_ne {name : String} {c : Char} {cs : List Char} (hname : name.toList = c :: cs)
    (hc : c.isDigit = false) (n : Nat) : joinName n ≠ name := by
  rintro rfl
  obtain ⟨d, ds, hds, hd⟩ := exists_toList_toString n
  rw [joinName, String.toList_append, hds] at hname
  rw [(List.cons.inj hname).1, hc] at hd
  cases hd

theorem joinName_ne_call (n : Nat) (c : Call) : joinName n ≠ c.declaration.name := by
  cases c with
  | value id sort => exact joinName_ne (c := 'v') String.toList_append rfl n
  | clock id => exact joinName_ne (c := 'c') String.toList_append rfl n
  | readFrom w r =>
    have hname : readsFrom.toList = ['r', 'f'] := by decide
    exact joinName_ne hname rfl n

/-! ### Requests and what is issued for them -/

/-- A request for a symbol. -/
inductive Request where
  | call (c : Call)
  /-- For a clock after two others. -/
  | join (x y : Term)

def Request.make : Request → StateM Symbols Term
  | call c => c.make
  | join x y => Symbols.joinClocks x y

/-- Answers requests one after the other. -/
def Symbols.serve (rs : List Request) : StateM Symbols (List Term) := rs.mapM Request.make

/-- A request with the number of the join, if it is for one. -/
inductive Issue where
  | call (c : Call)
  | join (n : Nat) (x y : Term)

namespace Issue

def request : Issue → Request
  | call c => .call c
  | join _ x y => .join x y

def declaration : Issue → Declaration
  | call c => c.declaration
  | join n _ _ => .const (joinName n) .int

def name (i : Issue) : String := i.declaration.name

@[simp] theorem name_call (c : Call) : (call c).name = c.declaration.name := rfl

@[simp] theorem name_join (n : Nat) (x y : Term) : (join n x y).name = joinName n := rfl

/-- The answer. -/
def term : Issue → Term
  | call (.value id sort) => .const (valueName id) sort
  | call (.clock id) => .const (clockName id) .int
  | call (.readFrom w r) => .eq (eventNumber w) (.apply readsFrom [eventNumber r] .int)
  | join n _ _ => .const (joinName n) .int

/-- What is asserted with the declaration. -/
def constraints (bound : Int) : Issue → List Term
  | call (.clock id) => [clockBound bound id]
  | call _ => []
  | join n x y =>
    [.gt (.const (joinName n) .int) (.int bound), happensBefore x (.const (joinName n) .int),
      happensBefore y (.const (joinName n) .int)]

/-- An answer is about one symbol. -/
theorem hasSymbol_term (i : Issue) {name : String} : i.term.HasSymbol name ↔ name = i.name := by
  match i with
  | call (.value id sort) => exact Term.hasSymbol_const
  | call (.clock id) => exact Term.hasSymbol_const
  | call (.readFrom w r) =>
    have hnumber (k : Nat) : ¬(eventNumber k).HasSymbol name := by
      rw [eventNumber, Term.hasSymbol_leaf rfl]
      exact Option.some_ne_none name ∘ Eq.symm
    have hsource : (Term.apply readsFrom [eventNumber r] .int).HasSymbol name ↔ name = readsFrom := by
      rw [Term.hasSymbol_iff]
      simp [Term.symbol?, Term.operands, hnumber, eq_comm]
    rw [term, Term.hasSymbol_iff]
    simp only [Term.symbol?, Term.operands, List.mem_cons, List.not_mem_nil, or_false, exists_eq_or_imp,
      exists_eq_left, hnumber, hsource, reduceCtorEq, false_or]
    rfl
  | join n x y => exact Term.hasSymbol_const

theorem name_eq_joinName {i : Issue} {n : Nat} : i.name = joinName n ↔ ∃ x y, i = join n x y := by
  cases i with
  | call c => simpa using (joinName_ne_call n c).symm
  | join m x y => simpa using joinName_inj

theorem name_eq_clockName {i : Issue} {id : Nat} : i.name = clockName id ↔ i = call (.clock id) := by
  cases i with
  | call c => simpa using Call.name_eq_clockName
  | join n x y => exact iff_of_false (joinName_ne_call n (.clock id)) (by simp)

/-- Issues of the same name have the same declaration, but that calls for a value may differ in its sort. -/
theorem declaration_eq_of_name_eq {i j : Issue} (hname : i.name = j.name)
    (hsort : ∀ id sort sort', i = call (.value id sort) → j = call (.value id sort') → sort = sort') :
    i.declaration = j.declaration := by
  cases j with
  | join n x y =>
    obtain ⟨u, v, rfl⟩ := name_eq_joinName.1 hname
    rfl
  | call d =>
    cases i with
    | join n x y => exact absurd hname (joinName_ne_call n d)
    | call c =>
      refine Call.declaration_eq_of_name_eq hname fun id sort sort' hc hd => ?_
      exact hsort id sort sort' (hc ▸ rfl) (hd ▸ rfl)

/-- The symbol of an answer is the one that is declared. -/
theorem closed_term {ds : List Declaration} {i : Issue} (h : i.declaration ∈ ds) : i.term.Closed ds := by
  match i with
  | call (.value id sort) => exact Term.closed_leaf rfl h
  | call (.clock id) => exact Term.closed_leaf rfl h
  | call (.readFrom w r) => exact readFrom_closed w r h
  | join n x y => exact Term.closed_leaf rfl h

/-- A constant is only bounded when it is issued. -/
theorem name_eq_of_boundsBelow {bound : Int} {i : Issue} {t : Term} (ht : t ∈ i.constraints bound)
    {name : String} (h : t.boundsBelow name = true) : i.name = name := by
  match i with
  | call (.value id sort) => cases ht
  | call (.readFrom w r) => cases ht
  | call (.clock id) =>
    cases List.mem_singleton.1 ht
    exact beq_iff_eq.1 h
  | join n x y =>
    simp only [constraints, List.mem_cons, List.not_mem_nil, or_false] at ht
    rcases ht with rfl | rfl | rfl
    · exact beq_iff_eq.1 h
    · cases h
    · cases h

theorem filter_constraints (bound : Int) (i : Issue) (id : Nat) :
    (i.constraints bound).filter (Term.boundsBelow (clockName id)) =
      if i.name = clockName id then [clockBound bound id] else [] := by
  split
  · next hname =>
    obtain rfl := name_eq_clockName.1 hname
    simp [constraints, boundsBelow_clockBound]
  · next hname =>
    rw [List.filter_eq_nil_iff]
    exact fun t ht hbelow => hname (name_eq_of_boundsBelow ht hbelow)

/-- Among issues of different names there is one bound for each clock. -/
theorem filter_flatMap_constraints (bound : Int) {l : List Issue} (hl : (l.map name).Nodup) (id : Nat) :
    (l.flatMap (constraints bound)).filter (Term.boundsBelow (clockName id)) =
      if clockName id ∈ l.map name then [clockBound bound id] else [] := by
  induction l with
  | nil => rfl
  | cons i l ih =>
    rw [List.map_cons, List.nodup_cons] at hl
    rw [List.flatMap_cons, List.filter_append, filter_constraints, ih hl.2, List.map_cons]
    by_cases hi : i.name = clockName id
    · rw [if_pos hi, if_neg (hi ▸ hl.1), if_pos (by simp [hi]), List.append_nil]
    · rw [if_neg hi, List.nil_append]
      simp [Ne.symm hi]

end Issue

/-- What is issued for requests when there were some joins before. -/
def issues (n : Nat) : List Request → List Issue
  | [] => []
  | .call c :: rs => .call c :: issues n rs
  | .join x y :: rs => .join n x y :: issues (n + 1) rs

theorem map_request_issues (n : Nat) (rs : List Request) : (issues n rs).map Issue.request = rs := by
  fun_induction issues n rs with
  | case1 => rfl
  | case2 n c rs ih => rw [List.map_cons, ih, Issue.request]
  | case3 n x y rs ih => rw [List.map_cons, ih, Issue.request]

/-- Joins are numbered from the one that is next. -/
theorem le_of_join_mem {n k : Nat} {rs : List Request} {x y : Term} (h : .join k x y ∈ issues n rs) :
    n ≤ k := by
  fun_induction issues n rs with
  | case1 => cases h
  | case2 n c rs ih => exact ih (by simpa using h)
  | case3 n x' y' rs ih =>
    rcases List.mem_cons.1 h with h | h
    · cases h
      exact Nat.le_refl _
    · exact Nat.le_of_succ_le (ih h)

/-- No two joins have the same number. -/
theorem join_unique {n k : Nat} {rs : List Request} {x y x' y' : Term} (h : .join k x y ∈ issues n rs)
    (h' : .join k x' y' ∈ issues n rs) : x = x' ∧ y = y' := by
  fun_induction issues n rs with
  | case1 => cases h
  | case2 n c rs ih => exact ih (by simpa using h) (by simpa using h')
  | case3 n u v rs ih =>
    rcases List.mem_cons.1 h with heq | hmem <;> rcases List.mem_cons.1 h' with heq' | hmem'
    · cases heq
      cases heq'
      exact ⟨rfl, rfl⟩
    · cases heq
      exact absurd (le_of_join_mem hmem') (Nat.not_succ_le_self _)
    · cases heq'
      exact absurd (le_of_join_mem hmem) (Nat.not_succ_le_self _)
    · exact ih hmem hmem'

/-! ### What symbols are after requests -/

namespace Symbols

/-- The symbols after what was issued: the first issue of a name was declared and constrained. -/
structure Issued (bound : Int) (is : List Issue) (s : Symbols) : Prop where
  declarations : s.script.declarations = (firstUses Issue.name is).map Issue.declaration
  assertions : s.script.assertions = (firstUses Issue.name is).flatMap (Issue.constraints bound)
  mem_clocks : ∀ id, id ∈ s.clocks ↔ .call (.clock id) ∈ is
  join_lt : ∀ n x y, .join n x y ∈ is → n < s.joins
  bound_eq : s.lowerBound = bound

theorem issued_ofConfig (c : Config) : (ofConfig c).Issued c.clockLowerBound [] where
  declarations := rfl
  assertions := rfl
  mem_clocks := by simp [ofConfig]
  join_lt := by simp
  bound_eq := rfl

theorem serve_cons (r : Request) (rs : List Request) (s : Symbols) :
    serve (r :: rs) s = ((r.make s).1 :: (serve rs (r.make s).2).1, (serve rs (r.make s).2).2) := by
  rw [serve, List.mapM_cons]
  rfl

theorem serve_append (rs rs' : List Request) (s : Symbols) :
    serve (rs ++ rs') s =
      ((serve rs s).1 ++ (serve rs' (serve rs s).2).1, (serve rs' (serve rs s).2).2) := by
  rw [serve, List.mapM_append]
  rfl

namespace Issued

variable {bound : Int} {is : List Issue} {s : Symbols}

theorem declares_iff (h : s.Issued bound is) {name : String} :
    s.script.declares name = true ↔ name ∈ is.map Issue.name := by
  rw [← mem_map_firstUses]
  simp [Smt.Script.declares, h.declarations, Issue.name]

theorem joinName_not_mem (h : s.Issued bound is) : joinName s.joins ∉ is.map Issue.name := by
  intro hmem
  obtain ⟨i, hi, hname⟩ := List.mem_map.1 hmem
  obtain ⟨x, y, rfl⟩ := Issue.name_eq_joinName.1 hname
  exact Nat.lt_irrefl _ (h.join_lt _ x y hi)

theorem clockName_mem_iff {id : Nat} : clockName id ∈ is.map Issue.name ↔ .call (.clock id) ∈ is := by
  simp only [List.mem_map, Issue.name_eq_clockName, exists_eq_right]

/-- Declaring what is issued adds it if it is the first of its name. -/
theorem declare (h : s.Issued bound is) (i : Issue) :
    (s.script.declare i.declaration).declarations =
      (firstUses Issue.name (is ++ [i])).map Issue.declaration := by
  have hdeclares : s.script.declares i.declaration.name = true ↔ i.name ∈ is.map Issue.name := h.declares_iff
  rw [firstUses_concat, Smt.Script.declare]
  by_cases hi : i.name ∈ is.map Issue.name
  · rw [if_pos (hdeclares.2 hi), if_pos hi, h.declarations]
  · rw [if_neg (mt hdeclares.1 hi), if_neg hi, List.map_append, ← h.declarations, List.map_singleton]

theorem constraints_of_new (h : s.Issued bound is) {i : Issue} (hi : i.name ∉ is.map Issue.name) :
    s.script.assertions ++ i.constraints bound =
      (firstUses Issue.name (is ++ [i])).flatMap (Issue.constraints bound) := by
  rw [firstUses_concat, if_neg hi, List.flatMap_append, ← h.assertions, List.flatMap_singleton]

theorem constraints_of_old (h : s.Issued bound is) {i : Issue}
    (hi : i.name ∈ is.map Issue.name ∨ i.constraints bound = []) :
    s.script.assertions = (firstUses Issue.name (is ++ [i])).flatMap (Issue.constraints bound) := by
  rw [firstUses_concat]
  split
  · exact h.assertions
  · next hnew =>
    rw [List.flatMap_append, List.flatMap_singleton, hi.resolve_left hnew, List.append_nil, h.assertions]

/-- A call for no clock only declares its symbol. -/
theorem declare_call (h : s.Issued bound is) {c : Call} (hc : c.clock? = none) :
    Issued bound (is ++ [Issue.call c]) { s with script := s.script.declare c.declaration } where
  declarations := h.declare (.call c)
  assertions := by
    have hnone : Issue.constraints bound (.call c) = [] := by
      cases c with
      | value id sort => rfl
      | clock id => cases hc
      | readFrom w r => rfl
    rw [Smt.Script.assertions_declare]
    exact h.constraints_of_old (.inr hnone)
  mem_clocks := by
    intro id
    have hne : Call.clock id ≠ c := by
      rintro rfl
      cases hc
    simpa [hne] using h.mem_clocks id
  join_lt := by
    intro n x y hmem
    exact h.join_lt n x y (by simpa using hmem)
  bound_eq := h.bound_eq

/-- A clock that was issued is not issued again. -/
theorem clock_of_mem (h : s.Issued bound is) {id : Nat} (hid : id ∈ s.clocks) :
    s.Issued bound (is ++ [Issue.call (.clock id)]) := by
  have hmem := (h.mem_clocks id).1 hid
  have hname : Issue.name (.call (.clock id)) ∈ is.map Issue.name := List.mem_map_of_mem hmem
  refine ⟨?_, h.constraints_of_old (.inl hname), fun k => ?_, fun n x y hj => ?_, h.bound_eq⟩
  · rw [firstUses_concat, if_pos hname, h.declarations]
  · rw [h.mem_clocks, List.mem_append, List.mem_singleton]
    refine ⟨.inl, ?_⟩
    rintro (hk | hk)
    · exact hk
    · exact hk ▸ hmem
  · exact h.join_lt n x y (by simpa using hj)

/-- A clock that is new is declared and bounded. -/
theorem clock_of_not_mem (h : s.Issued bound is) {id : Nat} (hid : id ∉ s.clocks) :
    Issued bound (is ++ [Issue.call (.clock id)])
      { s with
        clocks := id :: s.clocks
        script := (s.script.declare (.const (clockName id) .int)).assert (clockBound bound id) } where
  declarations := h.declare (.call (.clock id))
  assertions := by
    have hnew : Issue.name (.call (.clock id)) ∉ is.map Issue.name :=
      mt (clockName_mem_iff.trans (h.mem_clocks id).symm).1 hid
    show (s.script.declare _).assertions ++ [clockBound bound id] = _
    rw [Smt.Script.assertions_declare]
    exact h.constraints_of_new hnew
  mem_clocks := by
    intro k
    rw [List.mem_cons, h.mem_clocks, List.mem_append, List.mem_singleton, or_comm]
    simp
  join_lt := by
    intro n x y hj
    exact h.join_lt n x y (by simpa using hj)
  bound_eq := h.bound_eq

/-- **A call is answered by its term and issues its symbol.** -/
theorem call (h : s.Issued bound is) (c : Call) :
    (c.make s).1 = (Issue.call c).term ∧ (c.make s).2.joins = s.joins ∧
      (c.make s).2.Issued bound (is ++ [Issue.call c]) := by
  cases c with
  | value id sort => exact ⟨rfl, rfl, h.declare_call (c := .value id sort) rfl⟩
  | readFrom w r => exact ⟨rfl, rfl, h.declare_call (c := .readFrom w r) rfl⟩
  | clock id =>
    obtain rfl := h.bound_eq
    rw [Call.make]
    by_cases hid : id ∈ s.clocks
    · rw [Symbols.clock_of_mem hid]
      exact ⟨rfl, rfl, h.clock_of_mem hid⟩
    · rw [Symbols.clock_of_not_mem hid]
      exact ⟨rfl, rfl, h.clock_of_not_mem hid⟩

/-- **A join is answered by a new clock.** -/
theorem join (h : s.Issued bound is) (x y : Term) :
    (joinClocks x y s).1 = (Issue.join s.joins x y).term ∧ (joinClocks x y s).2.joins = s.joins + 1 ∧
      (joinClocks x y s).2.Issued bound (is ++ [Issue.join s.joins x y]) := by
  obtain rfl := h.bound_eq
  refine ⟨rfl, rfl, h.declare (.join s.joins x y), ?_, fun id => ?_, fun n u v hmem => ?_, rfl⟩
  · show (((s.script.declare _).assertions ++ [_]) ++ [_]) ++ [_] = _
    rw [Smt.Script.assertions_declare, List.append_assoc, List.append_assoc]
    exact h.constraints_of_new (i := .join s.joins x y) h.joinName_not_mem
  · show id ∈ s.clocks ↔ _
    simpa using h.mem_clocks id
  · rcases List.mem_append.1 hmem with hold | hlast
    · exact Nat.lt_succ_of_lt (h.join_lt n u v hold)
    · cases List.mem_singleton.1 hlast
      exact Nat.lt_succ_self s.joins

/-- **What requests are answered, and what symbols are after them.** -/
theorem serve (h : s.Issued bound is) (rs : List Request) :
    (Symbols.serve rs s).1 = (issues s.joins rs).map Issue.term ∧
      (Symbols.serve rs s).2.Issued bound (is ++ issues s.joins rs) := by
  induction rs generalizing s is with
  | nil =>
    rw [issues, List.append_nil]
    exact ⟨rfl, h⟩
  | cons r rs ih =>
    rw [serve_cons]
    cases r with
    | call c =>
      obtain ⟨hanswer, hjoins, hissued⟩ := h.call c
      obtain ⟨hanswers, hall⟩ := ih hissued
      rw [hjoins] at hanswers hall
      exact ⟨List.cons_eq_cons.2 ⟨hanswer, hanswers⟩, by rwa [issues, List.append_cons]⟩
    | join x y =>
      obtain ⟨hanswer, hjoins, hissued⟩ := h.join x y
      obtain ⟨hanswers, hall⟩ := ih hissued
      rw [hjoins] at hanswers hall
      exact ⟨List.cons_eq_cons.2 ⟨hanswer, hanswers⟩, by rwa [issues, List.append_cons]⟩

/-- If requests for a value agree in its sort, its symbol is declared as it is used. -/
theorem declaration_mem (h : s.Issued bound is) {i : Issue} (hi : i ∈ is)
    (hsort : ∀ id sort sort', i = .call (.value id sort) → .call (.value id sort') ∈ is → sort' = sort) :
    i.declaration ∈ s.script.declarations := by
  rw [h.declarations]
  obtain ⟨j, hj, hname⟩ := exists_mem_firstUses Issue.name hi
  have heq : j.declaration = i.declaration := by
    refine Issue.declaration_eq_of_name_eq hname ?_
    rintro id sort sort' rfl rfl
    exact hsort id sort' sort rfl (mem_of_mem_firstUses hj)
  exact heq ▸ List.mem_map_of_mem hj

/-- A clock that was issued is bounded once. -/
theorem filter_assertions (h : s.Issued bound is) {id : Nat} (hid : .call (.clock id) ∈ is) :
    s.script.assertions.filter (Term.boundsBelow (clockName id)) = [clockBound bound id] := by
  rw [h.assertions, Issue.filter_flatMap_constraints _ (nodup_map_firstUses _ _), if_pos]
  exact mem_map_firstUses.2 (clockName_mem_iff.2 hid)

end Issued

end Symbols

/-! ### When a script holds -/

namespace Request

/-- What the answer to a request is: the constant of a value or a clock, that a read sees a write, or some
clock. -/
def Gets (t : Term) : Request → Prop
  | .call (.value id sort) => t = .const (valueName id) sort
  | .call (.clock id) => t = .const (clockName id) .int
  | .call (.readFrom w r) => t = .eq (eventNumber w) (.apply readsFrom [eventNumber r] .int)
  | .join _ _ => ∃ name, t = .const name .int

/-- What a model has to make of the answer to a request: a clock is above a bound, and that of a join also
above what it joins. -/
def Obeys (m : Model) (bound : Int) (t : Term) : Request → Prop
  | .call (.clock _) => ∃ i, m.eval t = .ok (.int i) ∧ bound < i
  | .call _ => True
  | .join x y => ∃ i, m.eval t = .ok (.int i) ∧ bound < i ∧
      (∃ j, m.eval x = .ok (.int j) ∧ j < i) ∧ ∃ j, m.eval y = .ok (.int j) ∧ j < i

end Request

theorem holds_above {m : Model} {t : Term} {bound : Int} :
    m.Holds (.gt t (.int bound)) ↔ ∃ i, m.eval t = .ok (.int i) ∧ bound < i := by
  rw [Model.holds_gt]
  constructor
  · rintro ⟨i, b, hi, hb, hlt⟩
    cases hb
    exact ⟨i, hi, hlt⟩
  · rintro ⟨i, hi, hlt⟩
    exact ⟨i, bound, hi, rfl, hlt⟩

theorem holds_happensBefore {m : Model} {x t : Term} {i : Int} (ht : m.eval t = .ok (.int i)) :
    m.Holds (happensBefore x t) ↔ ∃ j, m.eval x = .ok (.int j) ∧ j < i := by
  rw [happensBefore, Model.holds_lt]
  constructor
  · rintro ⟨j, k, hj, hk, hlt⟩
    cases ht.symm.trans hk
    exact ⟨j, hj, hlt⟩
  · rintro ⟨j, hj, hlt⟩
    exact ⟨j, i, hj, ht, hlt⟩

theorem Issue.gets_term (i : Issue) : i.request.Gets i.term := by
  match i with
  | .call (.value id sort) => rfl
  | .call (.clock id) => rfl
  | .call (.readFrom w r) => rfl
  | .join n x y => exact ⟨joinName n, rfl⟩

/-- The constraints hold if and only if the answer is what it has to be. -/
theorem Issue.holds_constraints_iff (i : Issue) {m : Model} {bound : Int} :
    (∀ t ∈ i.constraints bound, m.Holds t) ↔ i.request.Obeys m bound i.term := by
  match i with
  | .call (.value id sort) => simp [constraints, request, Request.Obeys]
  | .call (.readFrom w r) => simp [constraints, request, Request.Obeys]
  | .call (.clock id) =>
    rw [constraints, List.forall_mem_singleton]
    exact holds_above
  | .join n x y =>
    rw [constraints, List.forall_mem_cons, List.forall_mem_cons, List.forall_mem_singleton, holds_above]
    constructor
    · rintro ⟨⟨k, hk, hlt⟩, hx, hy⟩
      exact ⟨k, hk, hlt, (holds_happensBefore hk).1 hx, (holds_happensBefore hk).1 hy⟩
    · rintro ⟨k, hk, hlt, hx, hy⟩
      exact ⟨⟨k, hk, hlt⟩, (holds_happensBefore hk).2 hx, (holds_happensBefore hk).2 hy⟩

/-- What is constrained is issued once. -/
theorem eq_of_name_eq {n : Nat} {rs : List Request} {i j : Issue} (hi : i ∈ issues n rs)
    (hj : j ∈ issues n rs) (hname : j.name = i.name) {bound : Int} {t : Term}
    (ht : t ∈ i.constraints bound) : j = i := by
  match i with
  | .call (.value id sort) => cases ht
  | .call (.readFrom w r) => cases ht
  | .call (.clock id) => exact Issue.name_eq_clockName.1 hname
  | .join k x y =>
    obtain ⟨u, v, rfl⟩ := Issue.name_eq_joinName.1 hname
    obtain ⟨rfl, rfl⟩ := join_unique hj hi
    rfl

theorem Symbols.Issued.mem_assertions {bound : Int} {n : Nat} {rs : List Request} {s : Symbols}
    (h : s.Issued bound (issues n rs)) {t : Term} :
    t ∈ s.script.assertions ↔ ∃ i ∈ issues n rs, t ∈ i.constraints bound := by
  rw [h.assertions, List.mem_flatMap]
  constructor
  · rintro ⟨i, hi, ht⟩
    exact ⟨i, mem_of_mem_firstUses hi, ht⟩
  · rintro ⟨i, hi, ht⟩
    obtain ⟨j, hj, hname⟩ := exists_mem_firstUses Issue.name hi
    obtain rfl := eq_of_name_eq hi (mem_of_mem_firstUses hj) hname ht
    exact ⟨j, hj, ht⟩

/-! ### Passes -/

/-- What answers to requests, and the script after them that ends in a formula, have to be. -/
structure Disciplined (c : Config) (rs : List Request) (formula : Term) (answers : List Term)
    (script : Smt.Script) : Prop where
  length_eq : answers.length = rs.length
  gets : ∀ (r : Request) (t : Term), (r, t) ∈ rs.zip answers → r.Gets t
  /-- Every symbol of an answer is declared. -/
  declares : ∀ t ∈ answers, ∀ name, t.HasSymbol name → script.declares name = true
  /-- It is declared with the sorts that it has in the answer, unless a value was asked for at different
  sorts. -/
  closed : ∀ (r : Request) (t : Term), (r, t) ∈ rs.zip answers →
    (∀ id sort sort', r = .call (.value id sort) → Request.call (.value id sort') ∈ rs → sort' = sort) →
    t.Closed script.declarations
  distinct : (script.declarations.map Declaration.name).Nodup
  clock_eq : ∀ (id : Nat) (t u : Term), (Request.call (.clock id), t) ∈ rs.zip answers →
    (Request.call (.clock id), u) ∈ rs.zip answers → t = u
  /-- Before the formula every clock is bounded, once. -/
  bounded : ∃ side : List Term, script.assertions = side ++ [formula] ∧
    ∀ id, Request.call (.clock id) ∈ rs →
      side.filter (Term.boundsBelow (clockName id)) = [clockBound c.clockLowerBound id]
  /-- The clock of a join is new. -/
  fresh : ∀ (before : List Request) (x y : Term) (after : List Request),
    rs = before ++ Request.join x y :: after →
    ∃ (earlier : List Term) (name : String) (later : List Term),
      answers = earlier ++ Term.const name .int :: later ∧ earlier.length = before.length ∧
      (Symbols.serve before (.ofConfig c)).2.script.declares name = false ∧
      ∀ t ∈ earlier, ¬t.HasSymbol name
  holds_iff : ∀ m : Model, script.holds m = .ok true ↔ m.satisfies formula = .ok true ∧
    ∀ (r : Request) (t : Term), (r, t) ∈ rs.zip answers → r.Obeys m c.clockLowerBound t

/-- Requests with their answers are what was issued. -/
theorem mem_zip_issues {n : Nat} {rs : List Request} {r : Request} {t : Term} :
    (r, t) ∈ rs.zip ((issues n rs).map Issue.term) ↔ ∃ i ∈ issues n rs, i.request = r ∧ i.term = t := by
  have hzip : rs.zip ((issues n rs).map Issue.term) = (issues n rs).map fun i => (i.request, i.term) := by
    calc rs.zip ((issues n rs).map Issue.term)
        = ((issues n rs).map Issue.request).zip ((issues n rs).map Issue.term) := by rw [map_request_issues]
      _ = (issues n rs).map fun i => (i.request, i.term) := List.zip_map'
  rw [hzip, List.mem_map]
  simp only [Prod.mk.injEq]

theorem call_mem_issues {n : Nat} {rs : List Request} {c : Call} :
    .call c ∈ issues n rs ↔ .call c ∈ rs := by
  have hrequest : ∀ i : Issue, i.request = .call c ↔ i = .call c := by
    intro i
    cases i <;> simp [Issue.request]
  conv => rhs; rw [← map_request_issues n rs]
  simp only [List.mem_map, hrequest, exists_eq_right]

theorem length_issues (n : Nat) (rs : List Request) : (issues n rs).length = rs.length := by
  have h := congrArg List.length (map_request_issues n rs)
  rwa [List.length_map] at h

/-- What a pass answers, and the symbols it leaves. -/
theorem serve_issues (c : Config) (rs : List Request) :
    (Symbols.serve rs (.ofConfig c)).1 = (issues 0 rs).map Issue.term ∧
      (Symbols.serve rs (.ofConfig c)).2.Issued c.clockLowerBound (issues 0 rs) :=
  (Symbols.issued_ofConfig c).serve rs

/-- A join is answered by a clock that was not declared and is in no answer before. -/
theorem serve_join (c : Config) (before : List Request) (x y : Term) (after : List Request) :
    ∃ (earlier : List Term) (name : String) (later : List Term),
      (Symbols.serve (before ++ Request.join x y :: after) (.ofConfig c)).1 =
        earlier ++ Term.const name .int :: later ∧
      earlier.length = before.length ∧
      (Symbols.serve before (.ofConfig c)).2.script.declares name = false ∧
      ∀ t ∈ earlier, ¬t.HasSymbol name := by
  obtain ⟨hanswers, hissued⟩ := serve_issues c before
  have hnew := hissued.joinName_not_mem
  rw [Symbols.serve_append, Symbols.serve_cons]
  refine ⟨(Symbols.serve before (.ofConfig c)).1, joinName (Symbols.serve before (.ofConfig c)).2.joins,
    _, rfl, ?_, eq_false_of_ne_true (mt hissued.declares_iff.1 hnew), ?_⟩
  · rw [hanswers, List.length_map, length_issues]
  · rw [hanswers]
    intro t ht hsymbol
    obtain ⟨i, hi, rfl⟩ := List.mem_map.1 ht
    exact hnew (i.hasSymbol_term.1 hsymbol ▸ List.mem_map_of_mem hi)

/-- A model makes the assertions of a pass true if and only if it makes of all answers what it has to. -/
theorem holds_serve_iff (c : Config) (rs : List Request) (m : Model) :
    (∀ t ∈ (Symbols.serve rs (.ofConfig c)).2.script.assertions, m.Holds t) ↔
      ∀ r t, (r, t) ∈ rs.zip (Symbols.serve rs (.ofConfig c)).1 → r.Obeys m c.clockLowerBound t := by
  obtain ⟨hanswers, hissued⟩ := serve_issues c rs
  rw [hanswers]
  constructor
  · intro h r t hrt
    obtain ⟨i, hi, rfl, rfl⟩ := mem_zip_issues.1 hrt
    exact i.holds_constraints_iff.1 fun t ht => h t (hissued.mem_assertions.2 ⟨i, hi, ht⟩)
  · intro h t ht
    obtain ⟨i, hi, ht⟩ := hissued.mem_assertions.1 ht
    exact i.holds_constraints_iff.2 (h _ _ (mem_zip_issues.2 ⟨i, hi, rfl, rfl⟩)) t ht

/-- **Symbols are handed out with discipline**, whatever is requested in a pass. -/
theorem serve_disciplined (c : Config) (rs : List Request) (formula : Term) :
    Disciplined c rs formula (Symbols.serve rs (.ofConfig c)).1
      ((Symbols.serve rs (.ofConfig c)).2.finish formula) := by
  obtain ⟨hanswers, hissued⟩ := serve_issues c rs
  have hissue : ∀ {r t}, (r, t) ∈ rs.zip (Symbols.serve rs (.ofConfig c)).1 →
      ∃ i ∈ issues 0 rs, i.request = r ∧ i.term = t := by
    rw [hanswers]
    exact mem_zip_issues.1
  have hgets : ∀ r t, (r, t) ∈ rs.zip (Symbols.serve rs (.ofConfig c)).1 → r.Gets t := by
    intro r t hrt
    obtain ⟨i, -, rfl, rfl⟩ := hissue hrt
    exact i.gets_term
  refine ⟨?_, hgets, fun t ht name hsymbol => ?_, fun r t hrt hsort => ?_, ?_, fun id t u ht hu => ?_,
    ⟨_, rfl, fun id hid => hissued.filter_assertions (call_mem_issues.2 hid)⟩, ?_, fun m => ?_⟩
  · rw [hanswers, List.length_map, length_issues]
  · rw [hanswers] at ht
    obtain ⟨i, hi, rfl⟩ := List.mem_map.1 ht
    rw [i.hasSymbol_term.1 hsymbol]
    exact hissued.declares_iff.2 (List.mem_map_of_mem hi)
  · obtain ⟨i, hi, rfl, rfl⟩ := hissue hrt
    refine Issue.closed_term (hissued.declaration_mem hi ?_)
    rintro id sort sort' rfl hmem
    exact hsort id sort sort' rfl (call_mem_issues.1 hmem)
  · show ((Symbols.serve rs (.ofConfig c)).2.script.declarations.map Declaration.name).Nodup
    rw [hissued.declarations, List.map_map]
    exact nodup_map_firstUses Issue.name _
  · exact (hgets _ t ht).trans (hgets _ u hu).symm
  · rintro before x y after rfl
    exact serve_join c before x y after
  · rw [Smt.Script.holds_eq_ok_true, Model.satisfies_eq_ok, ← holds_serve_iff]
    show (∀ t ∈ _ ++ [formula], m.Holds t) ↔ _
    rw [List.forall_mem_append, List.forall_mem_singleton, and_comm]
    rfl

end Memory

end Symex
