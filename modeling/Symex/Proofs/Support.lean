import Symex.Proofs.Flattening

/-!
What the value of a term depends on. The symbols in a term are its constants and the functions that are
applied in it, at any depth. Connectives, chains and sums bring none of their own and lose none of their
operands' (`SameSymbols`), and models that agree on the symbols of a term give it the same value, or the same
failure.
-/

namespace Symex.Smt

/-! ### Symbols of terms -/

namespace Term

/-- Whether a term is a constant or an application of a function. -/
def isSymbol : Term → Bool
  | .const _ _ | .apply _ _ _ => true
  | _ => false

theorem occurs_iff {u t : Term} : u.Occurs t ↔ u = t ∨ ∃ v ∈ t.operands, u.Occurs v := by
  constructor
  · intro h
    cases h with
    | self => exact .inl rfl
    | operand hv hu => exact .inr ⟨_, hv, hu⟩
  · rintro (rfl | ⟨v, hv, hu⟩)
    · exact .self
    · exact .operand hv hu

/-- The same symbols occur in the terms of two lists. -/
def SameSymbols (ts us : List Term) : Prop :=
  ∀ c : Term, c.isSymbol = true → ((∃ t ∈ ts, c.Occurs t) ↔ ∃ u ∈ us, c.Occurs u)

namespace SameSymbols

variable {t : Term} {ts us vs ws : List Term}

theorem refl (ts : List Term) : SameSymbols ts ts := fun _ _ => Iff.rfl

theorem trans (h : SameSymbols ts us) (h' : SameSymbols us vs) : SameSymbols ts vs :=
  fun c hc => (h c hc).trans (h' c hc)

theorem of_mem (h : ∀ t, t ∈ ts ↔ t ∈ us) : SameSymbols ts us := by
  intro c _
  simp only [h]

theorem append (h : SameSymbols ts us) (h' : SameSymbols vs ws) : SameSymbols (ts ++ vs) (us ++ ws) := by
  intro c hc
  simp only [List.mem_append, or_and_right, exists_or, h c hc, h' c hc]

theorem cons (h : SameSymbols [t] us) (h' : SameSymbols vs ws) : SameSymbols (t :: vs) (us ++ ws) :=
  h.append h'

/-- A term that is no symbol itself has those of its operands. -/
theorem operands (h : t.isSymbol = false) : SameSymbols [t] t.operands := by
  intro c hc
  have hne : c ≠ t := by
    rintro rfl
    rw [hc] at h
    cases h
  simp only [List.mem_singleton, exists_eq_left]
  rw [occurs_iff, or_iff_right hne]

theorem conj (ts : List Term) : SameSymbols [conj ts] ts := by
  unfold Term.conj
  split
  · exact .refl _
  · exact .operands rfl

theorem disj (ts : List Term) : SameSymbols [disj ts] ts := by
  unfold Term.disj
  split
  · exact .refl _
  · exact .operands rfl

end SameSymbols

/-- From two members on, each is in a link. -/
theorem exists_link_of_mem {link : Term → Term → Term} {ts : List Term} {v : Term} (hv : v ∈ ts)
    (hts : 2 ≤ ts.length) : ∃ x y, link x y ∈ ts.zipWith link ts.tail ∧ (v = x ∨ v = y) := by
  induction ts with
  | nil => cases hv
  | cons x ts ih =>
    cases ts with
    | nil => simp at hts
    | cons y ts =>
      rcases List.mem_cons.1 hv with rfl | hv
      · exact ⟨v, y, by simp, .inl rfl⟩
      · cases ts with
        | nil => exact ⟨x, y, by simp, .inr (List.mem_singleton.1 hv)⟩
        | cons z ts =>
          obtain ⟨x', y', hlink, hor⟩ := ih hv (by simp)
          exact ⟨x', y', List.mem_cons_of_mem _ hlink, hor⟩

namespace SameSymbols

/-- A chain repeats its inner members and loses none. -/
theorem chain {link : Term → Term → Term} {ts : List Term} (hlink : ∀ x y, SameSymbols [link x y] [x, y])
    (hts : 2 ≤ ts.length) : SameSymbols [chain link ts] ts := by
  refine (conj _).trans fun c hc => ?_
  have hpair : ∀ x y, c.Occurs (link x y) ↔ c.Occurs x ∨ c.Occurs y := by
    intro x y
    simpa using hlink x y c hc
  constructor
  · rintro ⟨l, hl, hcl⟩
    obtain ⟨x, hx, y, hy, rfl⟩ := Term.exists_link hl
    rcases (hpair x y).1 hcl with h | h
    · exact ⟨x, hx, h⟩
    · exact ⟨y, hy, h⟩
  · rintro ⟨v, hv, hcv⟩
    obtain ⟨x, y, hl, rfl | rfl⟩ := exists_link_of_mem hv hts
    · exact ⟨_, hl, (hpair v y).2 (.inl hcv)⟩
    · exact ⟨_, hl, (hpair x v).2 (.inr hcv)⟩

theorem foldl_bvAdd (t : Term) (ts : List Term) : SameSymbols [ts.foldl .bvAdd t] (t :: ts) := by
  induction ts generalizing t with
  | nil => exact .refl [t]
  | cons v ts ih =>
    have hsum : SameSymbols [.bvAdd t v] [t, v] := .operands rfl
    exact (ih (.bvAdd t v)).trans (hsum.append (.refl ts))

end SameSymbols

/-- The symbols in a term are constants, those of a list. -/
def HasConstants (t : Term) (cs : List (String × TermSort)) : Prop :=
  SameSymbols [t] (cs.map fun c => .const c.1 c.2)

section
variable {t : Term} {cs : List (String × TermSort)}

theorem occurs_const {u : Term} {name : String} {s : TermSort} :
    u.Occurs (.const name s) ↔ u = .const name s := by
  rw [occurs_iff]
  simp [operands]

theorem HasConstants.occurs_iff (h : t.HasConstants cs) {u : Term} (hu : u.isSymbol = true) :
    u.Occurs t ↔ ∃ c ∈ cs, u = .const c.1 c.2 := by
  have hsame : u.Occurs t ↔ ∃ v ∈ cs.map fun c => Term.const c.1 c.2, u.Occurs v := by simpa using h u hu
  rw [hsame]
  constructor
  · rintro ⟨_, hv, hu⟩
    obtain ⟨c, hc, rfl⟩ := List.mem_map.1 hv
    exact ⟨c, hc, occurs_const.1 hu⟩
  · rintro ⟨c, hc, rfl⟩
    exact ⟨_, List.mem_map_of_mem hc, .self⟩

theorem HasConstants.const_occurs_iff (h : t.HasConstants cs) {name : String} {s : TermSort} :
    (Term.const name s).Occurs t ↔ (name, s) ∈ cs := by
  rw [h.occurs_iff rfl]
  constructor
  · rintro ⟨c, hc, heq⟩
    cases heq
    exact hc
  · intro hc
    exact ⟨_, hc, rfl⟩

end

/-! ### Induction over operands -/

section
variable {P : Term → Prop}

mutual
/-- What holds of a term if it holds of its operands holds of all terms. -/
theorem of_operands (h : ∀ t : Term, (∀ v ∈ t.operands, P v) → P t) (t : Term) : P t := by
  refine h t ?_
  match t with
  | .bool _ | .int _ | .bitVec _ _ | .const _ _ => simp [operands]
  | .apply _ ts _ | .and ts | .or ts | .distinct ts | .add ts => exact of_operands_all h ts
  | .not a | .bvNot a | .signExtend _ a | .constArray _ a => simp [operands, of_operands h a]
  | .implies a b | .eq a b | .lt a b | .gt a b | .bvAdd a b | .bvSlt a b | .select a b =>
    simp [operands, of_operands h a, of_operands h b]
  | .ite a b c | .store a b c => simp [operands, of_operands h a, of_operands h b, of_operands h c]
theorem of_operands_all (h : ∀ t : Term, (∀ v ∈ t.operands, P v) → P t) (ts : List Term) :
    ∀ t ∈ ts, P t := by
  match ts with
  | [] => simp
  | t :: ts =>
    rw [List.forall_mem_cons]
    exact ⟨of_operands h t, of_operands_all h ts⟩
end

end

end Term

/-! ### Models that agree -/

namespace Model

variable {m m' : Model}

/-- Two models give a term that is a symbol the same meaning. -/
def SameAt (m m' : Model) : Term → Prop
  | .const name _ => m.get? name = m'.get? name
  | .apply func _ _ => m.funcs.find? func = m'.funcs.find? func
  | _ => True

theorem mapM_congr {ε α β : Type} {f g : α → Except ε β} {l : List α} (h : ∀ a ∈ l, f a = g a) :
    l.mapM f = l.mapM g := by
  induction l with
  | nil => rfl
  | cons a l ih =>
    rw [List.forall_mem_cons] at h
    rw [List.mapM_cons, List.mapM_cons, h.1, ih h.2]

theorem evalAll_congr (ts : List Term) (h : ∀ t ∈ ts, m.eval t = m'.eval t) :
    m.evalAll ts = m'.evalAll ts := by
  rw [evalAll_eq_mapM, evalAll_eq_mapM, mapM_congr h]

theorem evalBools_congr (ts : List Term) (h : ∀ t ∈ ts, m.eval t = m'.eval t) :
    m.evalBools ts = m'.evalBools ts := by
  rw [evalBools_eq_mapM, evalBools_eq_mapM]
  exact mapM_congr fun t ht => by rw [satisfies, satisfies, h t ht]

theorem evalInts_congr (ts : List Term) (h : ∀ t ∈ ts, m.eval t = m'.eval t) :
    m.evalInts ts = m'.evalInts ts := by
  rw [evalInts_eq_mapM, evalInts_eq_mapM]
  exact mapM_congr fun t ht => by rw [integer, integer, h t ht]

/-- One step of evaluation asks for the values of the operands and the meaning of the symbol. -/
theorem eval_congr_operands {t : Term} (ht : m.SameAt m' t) (h : ∀ v ∈ t.operands, m.eval v = m'.eval v) :
    m.eval t = m'.eval t := by
  cases t with
  | bool b => rfl
  | int i => rfl
  | bitVec v w => rfl
  | const name s =>
    have hget : m.get? name = m'.get? name := ht
    rw [eval, eval, hget]
  | apply f ts s =>
    have hfunc : m.funcs.find? f = m'.funcs.find? f := ht
    rw [eval, eval, evalAll_congr ts h]
    simp only [applyFunc, hfunc]
  | and ts | or ts => rw [eval, eval, evalBools_congr ts h]
  | distinct ts => rw [eval, eval, evalAll_congr ts h]
  | add ts => rw [eval, eval, evalInts_congr ts h]
  | not a | bvNot a | signExtend n a | constArray s a =>
    rw [Term.operands, List.forall_mem_singleton] at h
    rw [eval, eval, h]
  | implies a b | eq a b | lt a b | gt a b | bvAdd a b | bvSlt a b | select a b =>
    rw [Term.operands, List.forall_mem_cons, List.forall_mem_singleton] at h
    rw [eval, eval, h.1, h.2]
  | ite a b c | store a b c =>
    rw [Term.operands, List.forall_mem_cons, List.forall_mem_cons, List.forall_mem_singleton] at h
    rw [eval, eval, h.1, h.2.1, h.2.2]

/-- **A term has the same value in models that agree on its symbols.** -/
theorem eval_congr {t : Term} (h : ∀ u, u.Occurs t → m.SameAt m' u) : m.eval t = m'.eval t := by
  revert h
  refine Term.of_operands (P := fun t => (∀ u, u.Occurs t → m.SameAt m' u) → m.eval t = m'.eval t)
    (fun t ih h => ?_) t
  obtain ⟨ht, hops⟩ := Term.forall_occurs_iff.1 h
  exact eval_congr_operands ht fun v hv => ih v hv (hops v hv)

/-- A term whose symbols are constants has the same value in models that agree on these. -/
theorem eval_congr_constants {t : Term} {cs : List (String × TermSort)} (ht : t.HasConstants cs)
    (h : ∀ c ∈ cs, m.get? c.1 = m'.get? c.1) : m.eval t = m'.eval t := by
  refine eval_congr fun u hu => ?_
  by_cases hsym : u.isSymbol = true
  · obtain ⟨c, hc, rfl⟩ := (ht.occurs_iff hsym).1 hu
    exact h c hc
  · cases u <;> simp_all [Term.isSymbol, SameAt]

end Model

namespace Term

/-- A term depends on some constants: they occur in it, no other symbols do, and models that agree on them
give it one value. -/
structure DependsOn (t : Term) (cs : List (String × TermSort)) : Prop where
  constants : ∀ name s, (Term.const name s).Occurs t ↔ (name, s) ∈ cs
  functions : ∀ f ts s, ¬(Term.apply f ts s).Occurs t
  value : ∀ m m' : Model, (∀ c ∈ cs, m.get? c.1 = m'.get? c.1) → m.eval t = m'.eval t

theorem HasConstants.dependsOn {t : Term} {cs : List (String × TermSort)} (h : t.HasConstants cs) :
    t.DependsOn cs where
  constants _ _ := h.const_occurs_iff
  functions f ts s hocc := by
    obtain ⟨c, -, heq⟩ := (h.occurs_iff rfl).1 hocc
    cases heq
  value _ _ := Model.eval_congr_constants h

end Term

end Symex.Smt
