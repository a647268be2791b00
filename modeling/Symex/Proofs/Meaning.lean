import Symex.Memory.Values
import Symex.Proofs.TermSorts

/-!
What instructions mean. The value of an instruction is computed from the values that accesses see:
words of the width of their type that wrap, compare as signed numbers and are indices when extended by
their sign. The term of an instruction evaluates to that value in every model that gives the accesses
well-sorted values.
-/

namespace Symex

open Smt (Term TermSort Value Word Model)

/-! ### Sorts in memory -/

/-- The sorts that memory holds: booleans, words of at most the index width, and arrays of these. -/
def Smt.TermSort.InMemory : TermSort → Prop
  | .bool => True
  | .int => False
  | .bitVec w => 0 < w ∧ w ≤ indexWidth
  | .array i e => i = .bitVec indexWidth ∧ e.InMemory

theorem Ty.wordSort_inMemory (ty : Ty) : ty.wordSort.InMemory := by
  cases ty <;> simp [wordSort, TermSort.InMemory, width, TermSort.indexWidth]

theorem Memory.Shape.sort_inMemory (s : Memory.Shape) : s.sort.InMemory := by
  cases s with
  | scalar ty => exact ty.wordSort_inMemory
  | array ty => exact ⟨rfl, ty.wordSort_inMemory⟩

/-! ### Operations on values -/

namespace Smt.Value

/-- The two's complement pattern of a scalar. -/
def ofScalar : Scalar → Value
  | .bool b => .bool b
  | .char v => .bitVec (v.setWidth 64) 8
  | .short v => .bitVec (v.setWidth 64) 16
  | .int v => .bitVec (v.setWidth 64) 32

def isTrue : Value → Bool
  | .bool b => b
  | _ => false

/-- The negation of a boolean; of a word, that it is zero. -/
def negation : Value → Value
  | .bool b => .bool !b
  | .bitVec v _ => .bool (v = 0)
  | v => v

/-- The sum of two words, at the width of the first. -/
def plus : Value → Value → Value
  | .bitVec x w, .bitVec y _ => .bitVec ((x.setWidth w + y.setWidth w).setWidth 64) w
  | v, _ => v

/-- Whether a word is below another as a signed number. -/
def less : Value → Value → Bool
  | .bitVec x w, .bitVec y _ => (x.setWidth w).slt (y.setWidth w)
  | _, _ => false

/-- The index that a word is when it is extended by its sign. -/
def index : Value → Word
  | .bitVec x w => ((x.setWidth w).signExtend TermSort.indexWidth).setWidth 64
  | _ => 0

/-- The element of an array at an offset. -/
def elementAt : Value → Value → Value
  | .array d es, offset => (Table.find? offset.index es).getD d
  | v, _ => v

/-- An array with a new element at an offset. -/
def withElement : Value → Value → Value → Value
  | .array d es, offset, v => .array d (Table.insert offset.index v es)
  | a, _, _ => a

end Smt.Value

/-- An operator over values; one operand alone is itself, unless it is negated. -/
def Operator.onValues (op : Operator) : List Value → Value
  | [v] => if op = .not then v.negation else v
  | vs =>
    match op, vs with
    | .add, v :: rest => rest.foldl Value.plus v
    | .and, _ => .bool (vs.all Value.isTrue)
    | .or, _ => .bool (vs.any Value.isTrue)
    | .eq, _ => .bool (chained (fun x y => x = y) vs)
    | .lt, _ => .bool (chained Value.less vs)
    | _, _ => .bool false

namespace Memory

/-! ### The value of an instruction -/

namespace Instr

mutual
/-- The value of an instruction when accesses see values. -/
def value (ρ : Nat → Value) : Instr → Value
  | .lit s => .ofScalar s
  | .seen a => ρ a.id
  | .unary op i => op.onValues [i.value ρ]
  | .binary op l r => op.onValues [l.value ρ, r.value ρ]
  | .nary op _ is => op.onValues (valueAll ρ is)
  | .deref m o => (m.value ρ).elementAt (o.value ρ)
def valueAll (ρ : Nat → Value) : List Instr → List Value
  | [] => []
  | i :: is => i.value ρ :: valueAll ρ is
end

theorem valueAll_eq_map (ρ : Nat → Value) (is : List Instr) : valueAll ρ is = is.map (value ρ) := by
  induction is with
  | nil => rfl
  | cons i is ih => simp [valueAll, ih]

mutual
/-- A value depends on what the accesses of the instruction see only. -/
theorem value_congr {ρ ρ' : Nat → Value} (i : Instr) (h : ∀ a ∈ i.accesses, ρ a.id = ρ' a.id) :
    i.value ρ = i.value ρ' := by
  match i with
  | .lit s => rfl
  | .seen a => exact h a (by simp [accesses])
  | .unary op i => rw [value, value, i.value_congr h]
  | .binary op l r =>
    rw [value, value, l.value_congr fun a ha => h a (by simp [accesses, ha]),
      r.value_congr fun a ha => h a (by simp [accesses, ha])]
  | .nary op ty is => rw [value, value, valueAll_congr is h]
  | .deref m o =>
    rw [value, value, m.value_congr fun a ha => h a (by simp [accesses, ha]),
      o.value_congr fun a ha => h a (by simp [accesses, ha])]
theorem valueAll_congr {ρ ρ' : Nat → Value} (is : List Instr)
    (h : ∀ a ∈ accessesAll is, ρ a.id = ρ' a.id) : valueAll ρ is = valueAll ρ' is := by
  match is with
  | [] => rfl
  | i :: is =>
    rw [valueAll, valueAll, i.value_congr fun a ha => h a (by simp [accessesAll, ha]),
      valueAll_congr is fun a ha => h a (by simp [accessesAll, ha])]
end

/-- An instruction whose value is a boolean whenever accesses see values of their sorts. -/
def IsBoolean (i : Instr) : Prop :=
  ∀ ρ : Nat → Value, (∀ a ∈ i.accesses, (ρ a.id).HasSort a.sort) → ∃ b, i.value ρ = .bool b

end Instr

namespace Event

/-- What a write stores when accesses see values. -/
def written? (e : Event) (ρ : Nat → Value) : Option Value :=
  match e.payload with
  | .none => none
  | .value v =>
    match e.shape with
    | .scalar _ => some (v.value ρ)
    | .array _ => some (.array (v.value ρ) [])
  | .store m o v => some ((m.value ρ).withElement (o.value ρ) (v.value ρ))

/-- Whether the guard of an event is true when accesses see values. -/
def enabled (e : Event) (ρ : Nat → Value) : Bool :=
  match e.condition with
  | none => true
  | some c => (c.value ρ).isTrue

end Event

/-! ### The term of an instruction -/

/-- Name of the constant of an event's value. -/
def valueName (id : Nat) : String := "v" ++ toString id

namespace Instr

mutual
/-- The term of an instruction, without the symbols it hands out. -/
def term : Instr → Except Error Term
  | .lit s => .ok (literal s)
  | .seen a => .ok (.const (valueName a.id) a.sort)
  | .unary op i => do
    let t ← i.term
    applyWords op [t]
  | .binary op l r => do
    let x ← l.term
    let y ← r.term
    applyWords op [x, y]
  | .nary op _ is => if is.isEmpty then .error (.emptyNary op) else do applyWords op (← termAll is)
  | .deref m o => do
    let m ← m.term
    let o ← o.term
    elementTerm m (← indexTerm o)
def termAll : List Instr → Except Error (List Term)
  | [] => .ok []
  | i :: is => do
    let t ← i.term
    return t :: (← termAll is)
end

end Instr

end Memory

/-! ### Terms that have values -/

/-- A term that evaluates to a value of its sort, which is one that memory holds. -/
structure Smt.Model.Gives (m : Model) (t : Term) (v : Value) : Prop where
  eval_eq : m.eval t = .ok v
  typed : ∃ s, t.sort = .ok s ∧ s.InMemory ∧ v.HasSort s

namespace Smt.Model.Gives

variable {m : Model} {t : Term} {v : Value} {s : TermSort}

theorem of_sort (h : m.Gives t v) (hs : t.sort = .ok s) : s.InMemory ∧ v.HasSort s := by
  obtain ⟨s', hs', h⟩ := h.typed
  rw [hs] at hs'
  cases hs'
  exact h

theorem bool {b : Bool} (he : m.eval t = .ok (.bool b)) (hs : t.sort = .ok .bool) :
    m.Gives t (.bool b) := ⟨he, .bool, hs, trivial, .bool b⟩

end Smt.Model.Gives

namespace Memory

variable {m : Model}

theorem literal_gives (s : Scalar) : m.Gives (literal s) (.ofScalar s) := by
  have word : ∀ {n : Nat} (x : BitVec n), 0 < n → n ≤ 32 →
      m.Gives (.ofInt x.toInt n) (.bitVec (x.setWidth 64) n) := by
    intro n x h0 h32
    refine ⟨?_, .bitVec n, rfl, ⟨h0, h32⟩, .bitVec (Word.lowBits_setWidth (by omega) x)⟩
    show Except.ok (Value.bitVec _ _) = _
    rw [Word.lowBits_ofInt (by omega), BitVec.ofInt_toInt]
  cases s with
  | bool b => exact .bool rfl rfl
  | char v => exact word v (by decide) (by decide)
  | short v => exact word v (by decide) (by decide)
  | int v => exact word v (by decide) (by decide)

theorem negate_gives {t t' : Term} {v : Value} (h : m.Gives t v) (ht : negate t = .ok t') :
    m.Gives t' v.negation := by
  obtain ⟨s, hs, ht⟩ := bind_eq_ok.1 ht
  obtain ⟨-, hv⟩ := h.of_sort hs
  cases hv with
  | bool b =>
    cases ht
    refine .bool ?_ rfl
    rw [Smt.Model.eval]
    exact Smt.Model.bool_bind_eq_ok.2 ⟨b, h.eval_eq, rfl⟩
  | int i => cases ht
  | array hd hkeys hes => cases ht
  | bitVec hx =>
    cases ht
    refine .bool ?_ rfl
    rw [Smt.Model.eval_eq h.eval_eq rfl]
    simp [Word.lowBits]

/-! ### Operators -/

theorem sort_of_checkSorts {s : TermSort} {ts : List Term} (h : checkSorts s ts = .ok ()) :
    ∀ t ∈ ts, t.sort = .ok s := by
  induction ts with
  | nil => simp
  | cons t ts ih =>
    obtain ⟨found, hf, h⟩ := bind_eq_ok.1 h
    split at h
    · next he =>
      rw [List.forall_mem_cons]
      exact ⟨he ▸ hf, ih h⟩
    · cases h

theorem sort_of_commonSort {s : TermSort} {ts : List Term} (h : commonSort ts = .ok s) :
    ∀ t ∈ ts, t.sort = .ok s := by
  cases ts with
  | nil => simp
  | cons t ts =>
    obtain ⟨s', hs, h⟩ := bind_eq_ok.1 h
    obtain ⟨_, hc, h⟩ := bind_eq_ok.1 h
    cases h
    rw [List.forall_mem_cons]
    exact ⟨hs, sort_of_checkSorts hc⟩

/-- One operand stands for its application, unless it is negated. -/
theorem applyAt_singleton {op : Operator} (hop : op ≠ .not) {s : TermSort} {x t : Term}
    (ht : applyAt op s [x] = .ok t) : x = t := by
  cases op with
  | not => exact absurd rfl hop
  | add => exact Except.ok.inj ht
  | and => exact Except.ok.inj ht
  | or => exact Except.ok.inj ht
  | eq => cases ht
  | lt => cases ht

/-- What an operator makes of two or more operands. -/
theorem applyAt_eq_ok {op : Operator} {s : TermSort} {x y t : Term} {ts : List Term}
    (h : applyAt op s (x :: y :: ts) = .ok t) :
    (op = .add ∧ (∃ w, s = .bitVec w) ∧ t = (y :: ts).foldl .bvAdd x) ∨
    (op = .and ∧ s = .bool ∧ t = .conj (x :: y :: ts)) ∨
    (op = .or ∧ s = .bool ∧ t = .disj (x :: y :: ts)) ∨
    (op = .eq ∧ t = .chain .eq (x :: y :: ts)) ∨
    (op = .lt ∧ (∃ w, s = .bitVec w) ∧ t = .chain .bvSlt (x :: y :: ts)) := by
  cases op <;> cases s <;> simp_all [applyAt]

section
variable {l : List (Term × Value)}

/-- A chain of links holds if the values of all neighbours are related. -/
theorem chain_gives {link : Term → Term → Term} {rel : Value → Value → Bool}
    (hsort : ∀ x y, (link x y).sort = .ok .bool)
    (h : ∀ p ∈ l, ∀ q ∈ l, m.eval (link p.1 q.1) = .ok (.bool (rel p.2 q.2))) :
    m.Gives (.chain link (l.map (·.1))) (.bool (chained rel (l.map (·.2)))) := by
  rw [chained_map]
  exact .bool (Model.eval_chain h) (Term.sort_chain hsort)

/-- A sum of words of one width. -/
theorem sum_gives {t : Term} {v : Value} {w : Nat} (h : m.Gives t v) (hs : t.sort = .ok (.bitVec w))
    (hl : ∀ p ∈ l, m.Gives p.1 p.2 ∧ p.1.sort = .ok (.bitVec w)) :
    m.Gives ((l.map (·.1)).foldl .bvAdd t) ((l.map (·.2)).foldl Value.plus v) := by
  induction l generalizing t v with
  | nil => exact h
  | cons p l ih =>
    obtain ⟨hp, hps⟩ := hl p (by simp)
    obtain ⟨hm, hv⟩ := h.of_sort hs
    obtain ⟨-, hv'⟩ := hp.of_sort hps
    obtain ⟨q, u⟩ := p
    have hsum : m.Gives (.bvAdd t q) (v.plus u) := by
      cases hv with | @bitVec x _ hx => ?_
      cases hv' with | @bitVec y _ hy => ?_
      have hw : w ≤ 64 := Nat.le_trans hm.2 (by decide)
      refine ⟨?_, .bitVec w, hs, hm, .bitVec (Word.lowBits_setWidth hw _)⟩
      rw [Smt.Model.eval, h.eval_eq]
      refine bind_eq_ok.2 ⟨_, rfl, bind_eq_ok.2 ⟨(x, w), rfl, ?_⟩⟩
      refine bind_eq_ok.2 ⟨_, hp.eval_eq, bind_eq_ok.2 ⟨(y, w), rfl, ?_⟩⟩
      show Except.ok (Value.bitVec (Word.lowBits (x + y) w) w) = _
      rw [Word.lowBits_add hw]
      rfl
    exact ih hsum hs fun p hp => hl p (List.mem_cons_of_mem _ hp)

theorem eval_bvSlt {t u : Term} {v v' : Value} {w : Nat} (h : m.Gives t v) (h' : m.Gives u v')
    (hs : t.sort = .ok (.bitVec w)) (hs' : u.sort = .ok (.bitVec w)) :
    m.eval (.bvSlt t u) = .ok (.bool (v.less v')) := by
  obtain ⟨hm, hv⟩ := h.of_sort hs
  obtain ⟨-, hv'⟩ := h'.of_sort hs'
  cases hv with | @bitVec x _ hx => ?_
  cases hv' with | @bitVec y _ hy => ?_
  rw [Smt.Model.eval]
  refine bind_eq_ok.2 ⟨_, h.eval_eq, bind_eq_ok.2 ⟨(x, w), rfl, ?_⟩⟩
  refine bind_eq_ok.2 ⟨_, h'.eval_eq, bind_eq_ok.2 ⟨(y, w), rfl, ?_⟩⟩
  have hw : w < 64 := Nat.lt_of_le_of_lt hm.2 (by decide)
  show Except.ok (Value.bool (decide (Word.signed x w < Word.signed y w))) = _
  rw [Word.signed_eq hm.1 hw, Word.signed_eq hm.1 hw, Value.less, BitVec.slt_eq_decide]

theorem isTrue_of_hasSort {v : Value} (h : v.HasSort .bool) : v = .bool v.isTrue := by
  cases h with
  | bool b => rfl

/-- **An operator applied to terms is the operator over their values.** -/
theorem applyWords_gives {op : Operator} (hne : l ≠ []) (hl : ∀ p ∈ l, m.Gives p.1 p.2) {t : Term}
    (ht : applyWords op (l.map (·.1)) = .ok t) : m.Gives t (op.onValues (l.map (·.2))) := by
  obtain ⟨s, hs, ht⟩ := bind_eq_ok.1 ht
  have hsort : ∀ p ∈ l, p.1.sort = .ok s := fun p hp =>
    sort_of_commonSort hs p.1 (List.mem_map_of_mem hp)
  match l, hne, hl, hsort, ht with
  | [p], _, hl, _, ht =>
    have hp := hl p (by simp)
    by_cases hop : op = .not
    · subst hop
      exact negate_gives hp ht
    · have hpt : p.1 = t := applyAt_singleton hop ht
      rw [← hpt]
      simpa [Operator.onValues, hop] using hp
  | p :: q :: l, _, hl, hsort, ht =>
    have hbool : s = .bool → ∀ x ∈ p :: q :: l, m.eval x.1 = .ok (.bool x.2.isTrue) := by
      rintro rfl x hx
      rw [(hl x hx).eval_eq, ← isTrue_of_hasSort ((hl x hx).of_sort (hsort x hx)).2]
    obtain ⟨rfl, ⟨w, rfl⟩, rfl⟩ | ⟨rfl, rfl, rfl⟩ | ⟨rfl, rfl, rfl⟩ | ⟨rfl, rfl⟩ |
      ⟨rfl, ⟨w, rfl⟩, rfl⟩ := applyAt_eq_ok ht
    · exact sum_gives (l := q :: l) (hl p (by simp)) (hsort p (by simp)) fun x hx =>
        ⟨hl x (List.mem_cons_of_mem _ hx), hsort x (List.mem_cons_of_mem _ hx)⟩
    · refine .bool ((Smt.Model.eval_conj (hbool rfl)).trans ?_) rfl
      simp [Function.comp_def]
    · refine .bool ((Smt.Model.eval_disj (hbool rfl)).trans ?_) rfl
      simp [Function.comp_def]
    · exact chain_gives (fun _ _ => rfl) fun x hx y hy =>
        Smt.Model.eval_eq (hl x hx).eval_eq (hl y hy).eval_eq
    · exact chain_gives (fun _ _ => rfl) fun x hx y hy =>
        eval_bvSlt (hl x hx) (hl y hy) (hsort x hx) (hsort y hy)

end

/-! ### Arrays -/

/-- An offset as a term is the index that its value is. -/
theorem eval_indexTerm {t t' : Term} {v : Value} (h : m.Gives t v) (ht : indexTerm t = .ok t') :
    m.eval t' = .ok (.bitVec v.index TermSort.indexWidth) := by
  obtain ⟨s, hs, ht⟩ := bind_eq_ok.1 ht
  obtain ⟨hm, hv⟩ := h.of_sort hs
  cases hv with
  | bool b => cases ht
  | int i => cases ht
  | array hd hkeys hes => cases ht
  | @bitVec x w hx =>
    dsimp only at ht
    split at ht
    · next hw =>
      cases ht
      subst hw
      rw [h.eval_eq, Value.index, BitVec.signExtend_eq]
      exact congrArg (fun y => Except.ok (Value.bitVec y _)) hx.symm
    · split at ht
      · next hne hlt =>
        cases ht
        have hsum : w + (TermSort.indexWidth - w) = TermSort.indexWidth := by omega
        have hw : w < 64 := Nat.lt_of_le_of_lt hm.2 (by decide)
        rw [Smt.Model.eval]
        refine bind_eq_ok.2 ⟨_, h.eval_eq, bind_eq_ok.2 ⟨(x, w), rfl, ?_⟩⟩
        show Except.ok (Value.ofInt (Word.signed x w) (w + (TermSort.indexWidth - w))) = _
        rw [hsum, Value.ofInt, Word.signed_eq hm.1 hw, Word.lowBits_ofInt (by decide)]
        rfl
      · cases ht

/-- Elements of an array have the sort of its elements. -/
theorem elementAt_hasSort {a : Value} {i s : TermSort} (h : a.HasSort (.array i s)) (offset : Value) :
    (a.elementAt offset).HasSort s := by
  cases h with
  | @array d es _ hd hkeys hes =>
    show ((Table.find? offset.index es).getD d).HasSort s
    exact Table.forall_getD (P := (Value.HasSort · s)) hd hes _

theorem elementTerm_gives {t o u : Term} {v offset : Value} (h : m.Gives t v)
    (ho : m.eval o = .ok (.bitVec offset.index TermSort.indexWidth)) (hu : elementTerm t o = .ok u) :
    m.Gives u (v.elementAt offset) := by
  obtain ⟨e, he, hu⟩ := bind_eq_ok.1 hu
  cases hu
  obtain ⟨s, hs, he'⟩ := bind_eq_ok.1 he
  obtain ⟨hm, hv⟩ := h.of_sort hs
  cases hv with
  | bool b => cases he'
  | int i => cases he'
  | bitVec hx => cases he'
  | @array d es el hd hkeys hes =>
    cases he'
    refine ⟨?_, e, he, hm.2, elementAt_hasSort (.array hd hkeys hes) offset⟩
    rw [Smt.Model.eval]
    refine bind_eq_ok.2 ⟨_, h.eval_eq, bind_eq_ok.2 ⟨(d, es), rfl, ?_⟩⟩
    exact bind_eq_ok.2 ⟨_, ho, bind_eq_ok.2 ⟨_, rfl, rfl⟩⟩

theorem eval_store {t o u : Term} {v offset x : Value} {i s : TermSort} (h : m.Gives t v)
    (hs : t.sort = .ok (.array i s)) (ho : m.eval o = .ok (.bitVec offset.index TermSort.indexWidth))
    (hu : m.eval u = .ok x) : m.eval (.store t o u) = .ok (v.withElement offset x) := by
  obtain ⟨-, hv⟩ := h.of_sort hs
  cases hv with
  | @array d es _ hd hkeys hes =>
    rw [Smt.Model.eval]
    refine bind_eq_ok.2 ⟨_, h.eval_eq, bind_eq_ok.2 ⟨(d, es), rfl, ?_⟩⟩
    exact bind_eq_ok.2 ⟨_, ho, bind_eq_ok.2 ⟨_, rfl, bind_eq_ok.2 ⟨x, hu, rfl⟩⟩⟩

/-! ### Instructions -/

mutual
/-- **The term of an instruction evaluates to its value.** -/
theorem Instr.term_gives {ρ : Nat → Value} (i : Instr) {t : Term} (ht : i.term = .ok t)
    (h : ∀ a ∈ i.accesses, m.get? (valueName a.id) = some (ρ a.id) ∧ (ρ a.id).HasSort a.sort) :
    m.Gives t (i.value ρ) := by
  match i with
  | .lit s =>
    cases ht
    exact literal_gives s
  | .seen a =>
    cases ht
    obtain ⟨hv, hs⟩ := h a (by simp [accesses])
    refine ⟨?_, a.sort, rfl, a.shape.sort_inMemory, hs⟩
    rw [Smt.Model.eval, hv]
    rfl
  | .unary op i =>
    obtain ⟨x, hx, ht⟩ := bind_eq_ok.1 ht
    have hi := i.term_gives hx (by simpa [accesses] using h)
    exact applyWords_gives (l := [(x, i.value ρ)]) (by simp) (by simpa using hi) ht
  | .binary op l r =>
    obtain ⟨x, hx, ht⟩ := bind_eq_ok.1 ht
    obtain ⟨y, hy, ht⟩ := bind_eq_ok.1 ht
    have hl := l.term_gives hx fun a ha => h a (by simp [accesses, ha])
    have hr := r.term_gives hy fun a ha => h a (by simp [accesses, ha])
    exact applyWords_gives (l := [(x, l.value ρ), (y, r.value ρ)]) (by simp)
      (by simpa using ⟨hl, hr⟩) ht
  | .nary op ty is =>
    unfold term at ht
    split at ht
    · cases ht
    · next hne =>
      obtain ⟨ts, hts, ht⟩ := bind_eq_ok.1 ht
      obtain ⟨l, rfl, hvs, hl⟩ := termAll_gives is hts h
      rw [value, hvs]
      refine applyWords_gives ?_ hl ht
      rintro rfl
      cases is with
      | nil => exact hne rfl
      | cons i is => cases hvs
  | .deref a o =>
    obtain ⟨x, hx, ht⟩ := bind_eq_ok.1 ht
    obtain ⟨y, hy, ht⟩ := bind_eq_ok.1 ht
    obtain ⟨k, hk, ht⟩ := bind_eq_ok.1 ht
    have ha := a.term_gives hx fun b hb => h b (by simp [accesses, hb])
    have ho := o.term_gives hy fun b hb => h b (by simp [accesses, hb])
    exact elementTerm_gives ha (eval_indexTerm ho hk) ht
theorem Instr.termAll_gives {ρ : Nat → Value} (is : List Instr) {ts : List Term}
    (hts : Instr.termAll is = .ok ts)
    (h : ∀ a ∈ Instr.accessesAll is,
      m.get? (valueName a.id) = some (ρ a.id) ∧ (ρ a.id).HasSort a.sort) :
    ∃ l : List (Term × Value), ts = l.map (·.1) ∧ Instr.valueAll ρ is = l.map (·.2) ∧
      ∀ p ∈ l, m.Gives p.1 p.2 := by
  match is with
  | [] =>
    cases hts
    exact ⟨[], rfl, rfl, by simp⟩
  | i :: is =>
    obtain ⟨t, ht, hts⟩ := bind_eq_ok.1 hts
    obtain ⟨ts', hts', hts⟩ := bind_eq_ok.1 hts
    cases hts
    have hi := i.term_gives ht fun a ha => h a (by simp [Instr.accessesAll, ha])
    obtain ⟨l, rfl, hvs, hl⟩ := termAll_gives is hts' fun a ha => h a (by simp [Instr.accessesAll, ha])
    refine ⟨(t, i.value ρ) :: l, rfl, ?_, ?_⟩
    · rw [Instr.valueAll, hvs]
      rfl
    · rw [List.forall_mem_cons]
      exact ⟨hi, hl⟩
end

end Memory

end Symex
