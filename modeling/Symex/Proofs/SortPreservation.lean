import Symex.Proofs.TermSorts

/-!
Evaluation keeps sorts. If a model gives values of the right sorts to the symbols of a well-sorted term,
then the value of the term, if it has one, is of the sort of the term: words fit their width, and arrays
have keys of the index width and elements of one sort. If the arrays of a model list their elements by
ascending keys, so does every array that a term evaluates to.
-/

namespace Symex

open Smt (Term TermSort Word Value Model)

/-! ### Results of evaluation -/

/-- A computation that has a result only of some kind. -/
def Ensures {ε α : Type} (x : Except ε α) (P : α → Prop) : Prop := ∀ a, x = .ok a → P a

namespace Ensures

variable {ε α β : Type} {x : Except ε α} {f : α → Except ε β} {P : α → Prop} {Q : β → Prop}

theorem ok {a : α} (h : P a) : Ensures (.ok a : Except ε α) P := by
  intro b hb
  cases hb
  exact h

theorem error (e : ε) : Ensures (.error e) P := by
  intro a ha
  cases ha

theorem bind (hx : Ensures x P) (hf : ∀ a, P a → Ensures (f a) Q) : Ensures (x >>= f) Q := by
  intro b hb
  obtain ⟨a, ha, hb⟩ := bind_eq_ok.1 hb
  exact hf a (hx a ha) b hb

theorem step {a : α} (hf : Ensures (f a) Q) : Ensures (.ok a >>= f) Q := hf

/-- It may not matter what the first step results in. -/
theorem after (hf : ∀ a, Ensures (f a) Q) : Ensures (x >>= f) Q := by
  have hx : Ensures x fun _ => True := fun _ _ => trivial
  exact hx.bind fun a _ => hf a

end Ensures

namespace Smt

/-! ### Words and arrays of values -/

/-- A word that is cut to a width fits it. -/
theorem Word.lowBits_lowBits (v : Word) (w : Nat) : (v.lowBits w).lowBits w = v.lowBits w := by
  rcases Nat.le_total w 64 with hw | hw
  · exact lowBits_setWidth hw (v.setWidth w)
  · rw [lowBits_of_ge hw, lowBits_of_ge hw]

/-- All arrays in a value list their elements by ascending keys. -/
inductive Value.Ordered : Value → Prop
  | bool (b : Bool) : Ordered (.bool b)
  | int (i : Int) : Ordered (.int i)
  | bitVec (v : Word) (w : Nat) : Ordered (.bitVec v w)
  | array {d : Value} {es : List (Word × Value)} (hd : Ordered d) (hkeys : Table.Ascending es)
    (hes : ∀ e ∈ es, Ordered e.2) : Ordered (.array d es)

/-! ### Models that fit a term -/

namespace Model

/-- A symbol has values only of the sort that it has in a term, and a constant array is indexed by words
of the index width. Other terms ask for nothing. -/
def FitsAt (m : Model) : Term → Prop
  | .const name s => ∀ v, m.get? name = some v → v.HasSort s
  | .apply f _ s => ∀ vs v, m.applyFunc f vs = .ok v → v.HasSort s
  | .constArray s _ => ∃ element, s = .arrayOf element
  | _ => True

/-- A model fits a term if it does so wherever a term occurs in it. -/
def Fits (m : Model) (t : Term) : Prop := ∀ u, Term.Occurs u t → m.FitsAt u

/-- All arrays in the values of a model list their elements by ascending keys. -/
structure Ordered (m : Model) : Prop where
  const : ∀ name v, m.get? name = some v → v.Ordered
  func : ∀ f vs v, m.applyFunc f vs = .ok v → v.Ordered

variable {m : Model} {t u : Term}

theorem fits_iff : m.Fits t ↔ m.FitsAt t ∧ ∀ u ∈ t.operands, m.Fits u := Term.forall_occurs_iff

theorem Fits.operand (h : m.Fits t) (hu : u ∈ t.operands) : m.Fits u := (fits_iff.1 h).2 u hu

end Model

/-! ### Evaluation keeps sorts -/

/-- A value of a sort, with ordered arrays if a model has such. -/
structure Value.Kept (m : Model) (v : Value) (s : TermSort) : Prop where
  hasSort : v.HasSort s
  ordered : m.Ordered → v.Ordered

namespace Value.Kept

variable {m : Model} {v d : Value} {es : Table Word Value} {s i : TermSort}

theorem bool (b : Bool) : Kept m (.bool b) .bool := ⟨.bool b, fun _ => .bool b⟩

theorem int (i : Int) : Kept m (.int i) .int := ⟨.int i, fun _ => .int i⟩

theorem lowBits (x : Word) (w : Nat) : Kept m (.bitVec (x.lowBits w) w) (.bitVec w) :=
  ⟨.bitVec (Word.lowBits_lowBits x w), fun _ => .bitVec _ w⟩

theorem element (h : Kept m (.array d es) (.array i s)) (k : Word) : Kept m ((es.find? k).getD d) s := by
  obtain ⟨hs, ho⟩ := h
  cases hs with
  | array hd _ hes =>
    refine ⟨Table.forall_getD (P := (HasSort · s)) hd hes k, fun hm => ?_⟩
    cases ho hm with
    | array hd _ hes => exact Table.forall_getD hd hes k

theorem store (h : Kept m (.array d es) (.array i s)) {k : Word} {w : Nat} (hk : HasSort (.bitVec k w) i)
    (hv : Kept m v s) : Kept m (.array d (es.insert k v)) (.array i s) := by
  obtain ⟨hs, ho⟩ := h
  cases hs with
  | array hd hkeys hes =>
    cases hk with
    | bitVec hk =>
      refine ⟨?_, fun hm => ?_⟩
      · exact .array hd (Table.forall_mem_insert hkeys hk) (Table.forall_mem_insert hes hv.hasSort)
      · cases ho hm with
        | array hd hkeys hes =>
          exact .array hd (hkeys.insert k v) (Table.forall_mem_insert hes (hv.ordered hm))

theorem constArray (h : Kept m v s) : Kept m (.array v []) (.arrayOf s) :=
  ⟨.array h.hasSort (by simp) (by simp), fun hm => .array (h.ordered hm) .nil (by simp)⟩

end Value.Kept

namespace Term

variable {known : String → List TermSort → TermSort → Prop} {m : Model} {t : Term} {s : TermSort}

theorem HasSort.ensures_kept (h : t.HasSort known s) (hm : m.Fits t) :
    Ensures (m.eval t) fun v => v.Kept m s := by
  -- along the sorts: an operand matters only if the sort of the result is read off its value
  induction h with
  | bool b => exact .ok (.bool b)
  | int i => exact .ok (.int i)
  | bitVec _ hv => exact .ok ⟨.bitVec hv, fun _ => .bitVec _ _⟩
  | const name s =>
    have hc : m.FitsAt (.const name s) := hm _ .self
    rw [Model.eval]
    cases hv : m.get? name with
    | none => exact .error _
    | some v => exact .ok ⟨hc v hv, fun ho => ho.const name v hv⟩
  | apply _ _ _ _ =>
    have hc := hm _ .self
    rw [Model.eval]
    exact .after fun vs v hv => ⟨hc vs v hv, fun ho => ho.func _ vs v hv⟩
  | not _ _ | eq _ _ _ _ =>
    rw [Model.eval]
    exact .after fun _ => .after fun _ => .ok (.bool _)
  | and _ _ | or _ _ | distinct _ _ =>
    rw [Model.eval]
    exact .after fun _ => .ok (.bool _)
  | implies _ _ _ _ =>
    rw [Model.eval]
    refine .after fun _ => .after fun premise => ?_
    cases premise with
    | true => exact .after fun _ => .after fun _ => .ok (.bool _)
    | false => exact .ok (.bool _)
  | ite _ _ _ _ iht ihe =>
    rw [Model.eval]
    refine .after fun _ => .after fun choice => ?_
    cases choice with
    | true => exact iht (hm.operand (by simp [operands]))
    | false => exact ihe (hm.operand (by simp [operands]))
  | lt _ _ _ _ | gt _ _ _ _ | bvSlt _ _ _ _ =>
    rw [Model.eval]
    exact .after fun _ => .after fun _ => .after fun _ => .after fun _ => .ok (.bool _)
  | add _ _ =>
    rw [Model.eval]
    exact .after fun _ => .ok (.int _)
  | bvAdd _ _ iha _ =>
    rw [Model.eval]
    refine (iha (hm.operand (by simp [operands]))).bind fun _ hx => ?_
    cases hx.hasSort with
    | bitVec _ => exact .step (.after fun _ => .after fun _ => .ok (.lowBits _ _))
  | bvNot _ ih | signExtend _ _ ih =>
    rw [Model.eval]
    refine (ih (hm.operand (by simp [operands]))).bind fun _ hx => ?_
    cases hx.hasSort with
    | bitVec _ => exact .ok (.lowBits _ _)
  | select _ _ iha _ =>
    rw [Model.eval]
    refine (iha (hm.operand (by simp [operands]))).bind fun _ ha => ?_
    cases ha.hasSort with
    | array _ _ _ => exact .step (.after fun _ => .after fun k => .ok (ha.element k.1))
  | store _ _ _ iha ihi ihv =>
    rw [Model.eval]
    refine (iha (hm.operand (by simp [operands]))).bind fun _ ha => ?_
    cases ha.hasSort with
    | array _ _ _ =>
      refine (ihi (hm.operand (by simp [operands]))).bind fun _ hi => ?_
      cases hi.hasSort with
      | bitVec _ =>
        exact (ihv (hm.operand (by simp [operands]))).bind fun _ hv => .ok (ha.store hi.hasSort hv)
  | constArray k _ ih =>
    obtain ⟨element, hs⟩ := hm _ .self
    cases hs
    rw [Model.eval]
    exact (ih (hm.operand (by simp [operands]))).bind fun _ hv => .ok hv.constArray

variable {v : Value}

/-- **Evaluation keeps sorts**: a well-sorted term has values only of its sort, in a model that fits it. -/
theorem HasSort.eval_hasSort (h : t.HasSort known s) (hm : m.Fits t) (hv : m.eval t = .ok v) :
    v.HasSort s := (h.ensures_kept hm v hv).hasSort

/-- Terms have ordered values, in a model that has such. -/
theorem HasSort.eval_ordered (h : t.HasSort known s) (hm : m.Fits t) (ho : m.Ordered)
    (hv : m.eval t = .ok v) : v.Ordered := (h.ensures_kept hm v hv).ordered ho

end Term

end Smt

end Symex
