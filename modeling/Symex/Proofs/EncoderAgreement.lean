import Symex.Proofs.InstructionTerms
import Symex.Proofs.SequentialTerms

/-!
Two encodings of one tree. Expressions become terms over unbounded integers with sums of any length,
instructions terms over words of 32 bits with sums of two. A tree that can be read as both is encoded as
both, or refused as both for the same reason. In models that give its variables and its reads the same
values, and as long as no partial sum leaves the range of `int`, both terms have the same value: the
pattern of one is the other.
-/

namespace Symex

open Smt (Term TermSort Value Word Model)

/-! ### Operators over values of one type -/

/-- Whether an operator is over operands of a type. -/
def Operator.isOver (op : Operator) (ty : Ty) : Bool := op.takes ty 2

/-- A list is made again from what its elements are made of. -/
theorem eq_map_map {α β : Type} {l : List α} {f : β → α} {g : α → β} (h : ∀ a ∈ l, a = f (g a)) :
    l = (l.map g).map f := by
  induction l with
  | nil => rfl
  | cons a l ih =>
    rw [List.forall_mem_cons] at h
    rw [List.map_cons, List.map_cons, ← h.1, ← ih h.2]

namespace Smt.Value

/-- The value of a scalar has the sort of words of its type. -/
theorem ofScalar_hasSort (s : Scalar) : (ofScalar s).HasSort s.ty.wordSort := by
  cases s with
  | bool b => exact .bool b
  | char v => exact .bitVec (Word.lowBits_setWidth (by decide) v)
  | short v => exact .bitVec (Word.lowBits_setWidth (by decide) v)
  | int v => exact .bitVec (Word.lowBits_setWidth (by decide) v)

/-- A word is the pattern of its number. -/
theorem ofScalar_int (v : BitVec 32) : ofScalar (.int v) = ofInt v.toInt 32 := by
  rw [ofInt, Word.lowBits_ofInt (by decide), BitVec.ofInt_toInt]
  rfl

theorem setWidth_word (v : BitVec 32) : (v.setWidth 64).setWidth 32 = v := by
  rw [BitVec.setWidth_setWidth_of_le v (by decide), BitVec.setWidth_eq]

theorem plus_int (x y : BitVec 32) : plus (ofScalar (.int x)) (ofScalar (.int y)) = ofScalar (.int (x + y)) := by
  show bitVec (((x.setWidth 64).setWidth 32 + (y.setWidth 64).setWidth 32).setWidth 64) 32 = _
  rw [setWidth_word, setWidth_word]
  rfl

theorem less_int (x y : BitVec 32) : less (ofScalar (.int x)) (ofScalar (.int y)) = x.slt y := by
  show ((x.setWidth 64).setWidth 32).slt ((y.setWidth 64).setWidth 32) = _
  rw [setWidth_word, setWidth_word]

theorem ofScalar_int_inj {x y : BitVec 32} : ofScalar (.int x) = ofScalar (.int y) ↔ x = y := by
  constructor
  · intro h
    rw [← setWidth_word x, (Value.bitVec.inj h).1, setWidth_word]
  · rintro rfl
    rfl

theorem foldl_plus_int (vs : List (BitVec 32)) (first : BitVec 32) :
    (vs.map fun v => ofScalar (.int v)).foldl plus (ofScalar (.int first)) =
      ofScalar (.int (first + vs.foldr (· + ·) 0#32)) := by
  induction vs generalizing first with
  | nil => rw [List.map_nil, List.foldl_nil, List.foldr_nil, BitVec.add_zero]
  | cons v vs ih => rw [List.map_cons, List.foldl_cons, plus_int, ih, List.foldr_cons, BitVec.add_assoc]

end Smt.Value

namespace Operator

theorem takes_cases {op : Operator} {ty : Ty} {count : Nat} (h : op.takes ty count = true) :
    (op = .add ∧ ty = .int) ∨ (op = .and ∧ ty = .bool) ∨ (op = .or ∧ ty = .bool) ∨
    (op = .eq ∧ ty = .bool) ∨ (op = .eq ∧ ty = .int) ∨ (op = .lt ∧ ty = .int) := by
  cases op <;> cases ty <;> simp [takes] at h <;> simp

theorem onValues_bools {op : Operator} (h : op = .and ∨ op = .or ∨ op = .eq) (a b : Bool) (bs : List Bool) :
    op.onValues (((a :: b :: bs).map Scalar.bool).map .ofScalar) =
      .ofScalar (op.native .bool ((a :: b :: bs).map .bool)) := by
  rcases h with rfl | rfl | rfl
  · simp [onValues, native, Value.ofScalar, Value.isTrue, Function.comp_def]
  · simp [onValues, native, Value.ofScalar, Value.isTrue, Function.comp_def]
  · have hlink : ∀ p q, decide (Value.ofScalar (.bool p) = Value.ofScalar (.bool q)) =
        ((Scalar.bool p).promoted == (Scalar.bool q).promoted) := by decide
    show Value.bool (chained (fun v w => decide (v = w))
      (((a :: b :: bs).map Scalar.bool).map Value.ofScalar)) = Value.bool (chained _ _)
    simp only [chained_map, hlink]

/-- Words are added from the left and scalars from the right; both wrap, so this makes no difference. -/
theorem onValues_words {op : Operator} (h : op = .add ∨ op = .eq ∨ op = .lt) (a b : BitVec 32)
    (ws : List (BitVec 32)) : op.onValues (((a :: b :: ws).map Scalar.int).map .ofScalar) =
      .ofScalar (op.native .int ((a :: b :: ws).map .int)) := by
  rcases h with rfl | rfl | rfl
  · rw [List.map_map]
    show ((b :: ws).map fun w => Value.ofScalar (.int w)).foldl Value.plus (.ofScalar (.int a)) = _
    rw [Value.foldl_plus_int]
    simp [native, Function.comp_def, Scalar.convert_of_ty (show (Scalar.int _).ty = .int from rfl)]
  · show Value.bool (chained (fun v w => decide (v = w))
      (((a :: b :: ws).map Scalar.int).map Value.ofScalar)) = Value.bool (chained _ _)
    simp only [chained_map, Value.ofScalar_int_inj, Scalar.promoted_int]
    rfl
  · show Value.bool (chained Value.less
      (((a :: b :: ws).map Scalar.int).map Value.ofScalar)) = Value.bool (chained _ _)
    simp only [chained_map, Value.less_int, Scalar.promoted_int]

/-- **An operator over patterns is the pattern of the operator over scalars.** -/
theorem onValues_ofScalar {op : Operator} {ty : Ty} {vs : List Scalar} (h : op.takes ty vs.length = true)
    (hvs : ∀ v ∈ vs, v.ty = ty) : op.onValues (vs.map .ofScalar) = .ofScalar (op.native ty vs) := by
  match vs with
  | [] => cases op <;> cases ty <;> simp [takes] at h
  | [v] =>
    have hop : op = .add ∧ ty = .int ∨ (op = .and ∨ op = .or) ∧ ty = .bool := by
      cases op <;> cases ty <;> simp [takes] at h <;> simp
    have hnot : op ≠ .not := by
      rintro rfl
      simp at hop
    rw [native_singleton (hvs v (by simp)) hop]
    simp [onValues, hnot]
  | x :: y :: vs =>
    have hkind : (op = .and ∨ op = .or ∨ op = .eq) ∧ ty = .bool ∨
        (op = .add ∨ op = .eq ∨ op = .lt) ∧ ty = .int := by
      cases op <;> cases ty <;> simp [takes] at h <;> simp
    obtain ⟨hop, rfl⟩ | ⟨hop, rfl⟩ := hkind
    · have hbool : x :: y :: vs = ((x :: y :: vs).map Scalar.isTrue).map .bool :=
        eq_map_map fun v hv => Scalar.eq_bool_of_ty (hvs v hv)
      rw [hbool]
      exact onValues_bools hop _ _ _
    · have hint : x :: y :: vs = ((x :: y :: vs).map Scalar.promoted).map .int :=
        eq_map_map fun v hv => Scalar.eq_int_of_ty (hvs v hv)
      rw [hint]
      exact onValues_words hop _ _ _

end Operator

namespace Memory

/-! ### Operators over terms of one sort -/

theorem checkSorts_eq_ok {s : TermSort} {ts : List Term} (h : ∀ t ∈ ts, t.sort = .ok s) :
    checkSorts s ts = .ok () := by
  induction ts with
  | nil => rfl
  | cons t ts ih =>
    rw [List.forall_mem_cons] at h
    refine bind_eq_ok.2 ⟨s, h.1, ?_⟩
    rw [if_pos rfl]
    exact ih h.2

/-- Operands that agree in sort are applied at it. -/
theorem applyWords_eq_applyAt {op : Operator} {s : TermSort} {ts : List Term} (hne : ts ≠ [])
    (h : ∀ t ∈ ts, t.sort = .ok s) : applyWords op ts = applyAt op s ts := by
  cases ts with
  | nil => exact absurd rfl hne
  | cons t ts =>
    rw [List.forall_mem_cons] at h
    have hcommon : commonSort (t :: ts) = .ok s :=
      bind_eq_ok.2 ⟨s, h.1, bind_eq_ok.2 ⟨(), checkSorts_eq_ok h.2, rfl⟩⟩
    rw [applyWords, hcommon]
    rfl

theorem sort_foldl_bvAdd (t : Term) (ts : List Term) : (ts.foldl .bvAdd t).sort = t.sort := by
  induction ts generalizing t with
  | nil => rfl
  | cons u ts ih =>
    rw [List.foldl_cons, ih]
    rfl

/-- A reason to refuse an application: it has no operands, or one where two are needed. -/
inductive ArityError : Error → Prop
  | empty (op : Operator) : ArityError (.emptyNary op)
  | single (op : Operator) : ArityError (.partialNary op)

/-- **Both encodings of an operator accept the same numbers of operands.** -/
theorem apply_both {op : Operator} {ty : Ty} (hop : op.isOver ty = true) {ps : List (Term × Term)}
    (hne : ps ≠ []) (hps : ∀ p ∈ ps, p.2.sort = .ok ty.wordSort) :
    (∃ err, ArityError err ∧ op.applyTerms (ps.map (·.1)) = .error err ∧
      applyWords op (ps.map (·.2)) = .error err) ∨
    op.takes ty ps.length = true ∧ ∃ t u, op.applyTerms (ps.map (·.1)) = .ok t ∧
      applyWords op (ps.map (·.2)) = .ok u ∧ u.sort = .ok (op.resultTy ty).wordSort := by
  rw [applyWords_eq_applyAt (by simpa using hne) (List.forall_mem_map.2 hps)]
  match ps, hne with
  | [p], _ =>
    have hsort := hps p (by simp)
    obtain ⟨rfl, rfl⟩ | ⟨rfl, rfl⟩ | ⟨rfl, rfl⟩ | ⟨rfl, -⟩ | ⟨rfl, -⟩ | ⟨rfl, -⟩ :=
      Operator.takes_cases hop
    · exact .inr ⟨rfl, p.1, p.2, rfl, rfl, hsort⟩
    · exact .inr ⟨rfl, p.1, p.2, rfl, rfl, hsort⟩
    · exact .inr ⟨rfl, p.1, p.2, rfl, rfl, hsort⟩
    · exact .inl ⟨_, .single _, rfl, rfl⟩
    · exact .inl ⟨_, .single _, rfl, rfl⟩
    · exact .inl ⟨_, .single _, rfl, rfl⟩
  | p :: q :: ps, _ =>
    refine .inr ?_
    obtain ⟨rfl, rfl⟩ | ⟨rfl, rfl⟩ | ⟨rfl, rfl⟩ | ⟨rfl, rfl⟩ | ⟨rfl, rfl⟩ | ⟨rfl, rfl⟩ :=
      Operator.takes_cases hop
    · refine ⟨by simp [Operator.takes], _, _, rfl, rfl, ?_⟩
      rw [sort_foldl_bvAdd]
      exact hps p (by simp)
    · exact ⟨by simp [Operator.takes], _, _, rfl, rfl, rfl⟩
    · exact ⟨by simp [Operator.takes], _, _, rfl, rfl, rfl⟩
    · exact ⟨by simp [Operator.takes], _, _, rfl, rfl, Term.sort_chain fun _ _ => rfl⟩
    · exact ⟨by simp [Operator.takes], _, _, rfl, rfl, Term.sort_chain fun _ _ => rfl⟩
    · exact ⟨by simp [Operator.takes], _, _, rfl, rfl, Term.sort_chain fun _ _ => rfl⟩

/-! ### Trees -/

/-- Which scalars in memory stand for which free variables over `bool` and `int`. -/
structure Readings where
  Reads : String → Ty → Access → Prop
  hasSort : ∀ {name ty a}, Reads name ty a → ty.hasSort = true
  shape_eq : ∀ {name ty a}, Reads name ty a → a.shape = .scalar ty

/-- An expression and an instruction that are the same tree, of a type. -/
inductive SameTree (V : Readings) : Expr → Instr → Ty → Prop
  | lit {n : Nat} {name : Option String} {s : Scalar} (h : s.ty.hasSort = true) :
      SameTree V (.lit n s name) (.lit s) s.ty
  | var {n : Nat} {name : String} {ty : Ty} {a : Access} (h : V.Reads name ty a) :
      SameTree V (.any n name ty) (.seen a) ty
  | not {n : Nat} {e : Expr} {i : Instr} (h : SameTree V e i .bool) :
      SameTree V (.unary n .not e) (.unary .not i) .bool
  | nary {n : Nat} {op : Operator} {ty : Ty} {ps : List (Expr × Instr)} (hop : op.isOver ty = true)
      (h : ∀ p ∈ ps, SameTree V p.1 p.2 ty) :
      SameTree V (.nary n op ty (ps.map (·.1))) (.nary op ty (ps.map (·.2))) (op.resultTy ty)
  | binary {n : Nat} {op : Operator} {ty : Ty} {e f : Expr} {i j : Instr} (hop : op.isOver ty = true)
      (hl : SameTree V e i ty) (hr : SameTree V f j ty) :
      SameTree V (.nary n op ty [e, f]) (.binary op i j) (op.resultTy ty)

/-- Both are refused, for the same reason. -/
def BothFail (e : Expr) (i : Instr) : Prop :=
  ∃ err, ArityError err ∧ e.term = .error err ∧ i.term = .error err

/-- Both have terms; the expression is then well-typed, and the instruction's term is a word of the type. -/
structure BothEncode (e : Expr) (i : Instr) (ty : Ty) (t u : Term) : Prop where
  term_eq : e.term = .ok t
  instr_eq : i.term = .ok u
  wellTyped : e.wellTyped = true
  sort_eq : u.sort = .ok ty.wordSort

/-- Operands are encoded from left to right, so that the first one that is refused decides. -/
theorem operands_both {ty : Ty} {ps : List (Expr × Instr)}
    (h : ∀ p ∈ ps, BothFail p.1 p.2 ∨ ∃ t u, BothEncode p.1 p.2 ty t u) :
    (∃ err, ArityError err ∧ Expr.termAll (ps.map (·.1)) = .error err ∧
      Instr.termAll (ps.map (·.2)) = .error err) ∨
    (∀ p ∈ ps, p.1.wellTyped = true) ∧ ∃ qs : List (Term × Term), qs.length = ps.length ∧
      Expr.termAll (ps.map (·.1)) = .ok (qs.map (·.1)) ∧
      Instr.termAll (ps.map (·.2)) = .ok (qs.map (·.2)) ∧ ∀ q ∈ qs, q.2.sort = .ok ty.wordSort := by
  induction ps with
  | nil => exact .inr ⟨by simp, [], rfl, rfl, rfl, by simp⟩
  | cons p ps ih =>
    rw [List.forall_mem_cons] at h
    simp only [List.map_cons, Expr.termAll, Instr.termAll]
    obtain ⟨err, harity, he, hi⟩ | ⟨t, u, hp⟩ := h.1
    · rw [he, hi]
      exact .inl ⟨err, harity, rfl, rfl⟩
    · rw [hp.term_eq, hp.instr_eq]
      obtain ⟨err, harity, he, hi⟩ | ⟨hwt, qs, hlen, he, hi, hqs⟩ := ih h.2
      · rw [he, hi]
        exact .inl ⟨err, harity, rfl, rfl⟩
      · rw [he, hi]
        refine .inr ⟨List.forall_mem_cons.2 ⟨hp.wellTyped, hwt⟩, (t, u) :: qs, ?_, rfl, rfl, ?_⟩
        · rw [List.length_cons, List.length_cons, hlen]
        · exact List.forall_mem_cons.2 ⟨hp.sort_eq, hqs⟩

/-- An instruction with two operands is encoded as one with a list of two. -/
theorem Instr.term_binary (op : Operator) (ty : Ty) (i j : Instr) :
    (Instr.binary op i j).term = (Instr.nary op ty [i, j]).term := by
  rw [Instr.term, Instr.term, if_neg (by simp), Instr.termAll, Instr.termAll]
  cases i.term with
  | error err => rfl
  | ok t =>
    cases j.term with
    | error err => rfl
    | ok u => rfl

namespace SameTree

variable {V : Readings} {e : Expr} {i : Instr} {ty : Ty}

theorem ty_eq (h : SameTree V e i ty) : e.ty = ty := by
  cases h <;> rfl

/-- An application is encoded as both, or refused as both, if that is so of its operands. -/
theorem nary_both {n : Nat} {op : Operator} {ps : List (Expr × Instr)} (hop : op.isOver ty = true)
    (hty : ∀ p ∈ ps, p.1.ty = ty)
    (h : ∀ p ∈ ps, BothFail p.1 p.2 ∨ ∃ t u, BothEncode p.1 p.2 ty t u) :
    BothFail (.nary n op ty (ps.map (·.1))) (.nary op ty (ps.map (·.2))) ∨
    ∃ t u, BothEncode (.nary n op ty (ps.map (·.1))) (.nary op ty (ps.map (·.2))) (op.resultTy ty) t u := by
  cases ps with
  | nil => exact .inl ⟨_, .empty op, rfl, rfl⟩
  | cons p ps =>
    -- a refused operand comes before the count of operands on both sides
    obtain ⟨err, harity, he, hi⟩ | ⟨hwt, qs, hlen, he, hi, hqs⟩ := operands_both h
    · refine .inl ⟨err, harity, ?_, ?_⟩
      · rw [Expr.term, he]
        rfl
      · rw [Instr.term, if_neg (by simp), hi]
        rfl
    · have hne : qs ≠ [] := by
        rintro rfl
        cases hlen
      have hterm : (Expr.nary n op ty ((p :: ps).map (·.1))).term = op.applyTerms (qs.map (·.1)) := by
        rw [Expr.term, he]
        rfl
      have hinstr : (Instr.nary op ty ((p :: ps).map (·.2))).term = applyWords op (qs.map (·.2)) := by
        rw [Instr.term, if_neg (by simp), hi]
        rfl
      obtain ⟨err, harity, ht, hu⟩ | ⟨htakes, t, u, ht, hu, hsort⟩ := apply_both hop hne hqs
      · exact .inl ⟨err, harity, hterm.trans ht, hinstr.trans hu⟩
      · refine .inr ⟨t, u, hterm.trans ht, hinstr.trans hu, ?_, hsort⟩
        rw [Expr.wellTyped_nary_iff, List.length_map, ← hlen]
        refine ⟨htakes, List.forall_mem_map.2 fun p hp => ⟨hty p hp, hwt p hp⟩⟩

/-- **A tree is encoded as both, or refused as both for the same reason.** -/
theorem both (h : SameTree V e i ty) : BothFail e i ∨ ∃ t u, BothEncode e i ty t u := by
  induction h with
  | @lit n name s h =>
    refine .inr ?_
    cases s with
    | bool b => exact ⟨_, _, rfl, rfl, rfl, rfl⟩
    | int v => exact ⟨_, _, rfl, rfl, rfl, rfl⟩
    | char v => cases h
    | short v => cases h
  | @var n name ty a h =>
    obtain ⟨s, hs⟩ := Expr.exists_termSort (V.hasSort h)
    refine .inr ⟨.const name s, _, ?_, rfl, V.hasSort h, ?_⟩
    · rw [Expr.term, hs]
      rfl
    · show Except.ok a.shape.sort = _
      rw [V.shape_eq h]
      rfl
  | @not n e i h ih =>
    obtain ⟨err, harity, he, hi⟩ | ⟨t, u, hp⟩ := ih
    · refine .inl ⟨err, harity, ?_, ?_⟩
      · rw [Expr.term, he]
        rfl
      · rw [Instr.term, hi]
        rfl
    · refine .inr ⟨.not t, .not u, ?_, ?_, ?_, rfl⟩
      · rw [Expr.term, hp.term_eq]
        rfl
      · rw [Instr.term, hp.instr_eq]
        show applyWords .not [u] = _
        rw [applyWords_eq_applyAt (by simp) (by simpa using hp.sort_eq)]
        show negate u = _
        rw [negate, hp.sort_eq]
        rfl
      · exact Expr.wellTyped_unary_iff.2 ⟨⟨rfl, h.ty_eq⟩, hp.wellTyped⟩
  | nary hop h ih => exact nary_both hop (fun p hp => (h p hp).ty_eq) ih
  | @binary n op ty e f i j hop hl hr ihl ihr =>
    have hty : ∀ p ∈ [(e, i), (f, j)], p.1.ty = ty := by simp [hl.ty_eq, hr.ty_eq]
    have hboth : ∀ p ∈ [(e, i), (f, j)], BothFail p.1 p.2 ∨ ∃ t u, BothEncode p.1 p.2 ty t u := by
      simp [ihl, ihr]
    have hbinary := Instr.term_binary op ty i j
    obtain ⟨err, harity, he, hi⟩ | ⟨t, u, hp⟩ := nary_both (n := n) hop hty hboth
    · exact .inl ⟨err, harity, he, hbinary.trans hi⟩
    · exact .inr ⟨t, u, hp.term_eq, hbinary.trans hp.instr_eq, hp.wellTyped, hp.sort_eq⟩

/-! ### Values of trees -/

theorem nary_value {env : Env} {ρ : Nat → Value} {n : Nat} {op : Operator} {ps : List (Expr × Instr)}
    (h : ∀ p ∈ ps, p.1.wellTyped = true → p.2.value ρ = .ofScalar (p.1.value env))
    (hwt : (Expr.nary n op ty (ps.map (·.1))).wellTyped = true) :
    op.onValues ((ps.map (·.2)).map (Instr.value ρ)) =
      .ofScalar ((Expr.nary n op ty (ps.map (·.1))).value env) := by
  rw [Expr.wellTyped_nary_iff, List.forall_mem_map] at hwt
  have hvalues : (ps.map (·.2)).map (Instr.value ρ) =
      ((ps.map (·.1)).map (Expr.value env)).map Value.ofScalar := by
    rw [List.map_map, List.map_map, List.map_map]
    exact List.map_congr_left fun p hp => h p hp (hwt.2 p hp).2
  rw [hvalues, Expr.value_nary]
  refine Operator.onValues_ofScalar (by simpa using hwt.1) ?_
  rw [List.forall_mem_map, List.forall_mem_map]
  exact fun p hp => (Expr.ty_value (hwt.2 p hp).2 env).trans (hwt.2 p hp).1

/-- **The value of the instruction is the pattern of what the expression denotes.** -/
theorem value_eq (h : SameTree V e i ty) {env : Env} {ρ : Nat → Value}
    (hρ : ∀ {name ty a}, V.Reads name ty a → ρ a.id = .ofScalar (env.value name ty))
    (hwt : e.wellTyped = true) : i.value ρ = .ofScalar (e.value env) := by
  induction h with
  | lit h => rfl
  | var h => exact hρ h
  | @not n e i h ih =>
    obtain ⟨-, hwt⟩ := Expr.wellTyped_unary_iff.1 hwt
    have hbool := Scalar.eq_bool_of_ty ((Expr.ty_value hwt env).trans h.ty_eq)
    show (i.value ρ).negation = _
    rw [ih hwt, Expr.value, hbool, Scalar.isTrue_bool]
    rfl
  | nary hop h ih =>
    rw [Instr.value, Instr.valueAll_eq_map]
    exact nary_value ih hwt
  | @binary n op ty e f i j hop hl hr ihl ihr =>
    have hps : ∀ p ∈ [(e, i), (f, j)], p.1.wellTyped = true → p.2.value ρ = .ofScalar (p.1.value env) :=
      List.forall_mem_cons.2 ⟨ihl, List.forall_mem_cons.2 ⟨ihr, by simp⟩⟩
    exact nary_value hps hwt

/-- The free variables of the expression have been read. -/
theorem exists_reads_of_occurrence (h : SameTree V e i ty) : ∀ v ∈ e.occurrences, ∃ a, V.Reads v.1 v.2 a := by
  induction h with
  | lit h => simp [Expr.occurrences]
  | @var n name ty a h =>
    intro v hv
    obtain rfl := List.mem_singleton.1 hv
    exact ⟨a, h⟩
  | not h ih => exact ih
  | nary hop h ih =>
    rw [Expr.occurrences, Expr.occurrencesAll_eq_flatMap, List.forall_mem_flatMap, List.forall_mem_map]
    exact ih
  | binary hop hl hr ihl ihr =>
    simp only [Expr.occurrences, Expr.occurrencesAll, List.append_nil]
    exact List.forall_mem_append.2 ⟨ihl, ihr⟩

/-- The accesses of the instruction stand for free variables. -/
theorem exists_reads_of_access (h : SameTree V e i ty) : ∀ a ∈ i.accesses, ∃ name ty, V.Reads name ty a := by
  induction h with
  | lit h => simp [Instr.accesses]
  | @var n name ty a h =>
    intro b hb
    obtain rfl := List.mem_singleton.1 hb
    exact ⟨name, ty, h⟩
  | not h ih => exact ih
  | nary hop h ih =>
    rw [Instr.accesses, Instr.accessesAll_eq_flatMap, List.forall_mem_flatMap, List.forall_mem_map]
    exact ih
  | binary hop hl hr ihl ihr => exact List.forall_mem_append.2 ⟨ihl, ihr⟩

end SameTree

/-! ### Agreement -/

/-- Models that give free variables and what stands for them the same values: a number and its pattern. -/
def Readings.Corresponding (V : Readings) (env : Env) (m m' : Model) : Prop :=
  ∀ {name ty a}, V.Reads name ty a → m.get? name = some (.ofNative (env.value name ty)) ∧
    m'.get? (valueName a.id) = some (.ofScalar (env.value name ty))

/-- Results of a type that say the same: equal booleans, or a number and its pattern of 32 bits. -/
inductive SameResult : Ty → Value → Value → Prop
  | bool (b : Bool) : SameResult .bool (.bool b) (.bool b)
  | int (n : Int) : SameResult .int (.int n) (.ofInt n 32)

theorem sameResult_of_scalar {s : Scalar} (h : s.ty.hasSort = true) :
    SameResult s.ty (.ofNative s) (.ofScalar s) := by
  cases s with
  | bool b => exact .bool b
  | int v =>
    rw [Value.ofScalar_int]
    exact .int v.toInt
  | char v => cases h
  | short v => cases h

section
variable {V : Readings} {env : Env} {m m' : Model} {e : Expr} {i : Instr} {ty : Ty}

theorem SameTree.follows (h : SameTree V e i ty) (hm : V.Corresponding env m m') : m.Follows env e := by
  intro v hv
  obtain ⟨a, ha⟩ := h.exists_reads_of_occurrence v hv
  exact (hm ha).1

/-- The term of the instruction evaluates to the pattern of what the expression denotes. -/
theorem SameTree.instr_gives (h : SameTree V e i ty) (hm : V.Corresponding env m m')
    (hwt : e.wellTyped = true) {u : Term} (hu : i.term = .ok u) :
    m'.Gives u (.ofScalar (e.value env)) := by
  obtain ⟨ρ, hρ⟩ : ∃ ρ : Nat → Value, ∀ id, ρ id = (m'.get? (valueName id)).getD (.bool false) :=
    ⟨_, fun _ => rfl⟩
  have hread : ∀ {name ty a}, V.Reads name ty a → ρ a.id = .ofScalar (env.value name ty) := by
    intro name ty a ha
    rw [hρ, (hm ha).2]
    rfl
  rw [← h.value_eq hread hwt]
  refine i.term_gives hu fun a ha => ?_
  obtain ⟨name, ty, hr⟩ := h.exists_reads_of_access a ha
  have hsort : a.sort = (env.value name ty).ty.wordSort := by
    rw [Access.sort, V.shape_eq hr, env.ty_value]
    rfl
  rw [hread hr, hsort]
  exact ⟨(hm hr).2, Value.ofScalar_hasSort _⟩

end

/-- **The encodings agree.** A tree is refused as an expression and as an instruction for the same reason, or
it has terms as both. These give results that say the same in corresponding models, if under the values
of the variables there no partial sum leaves the range of `int`. -/
theorem SameTree.encodings_agree {V : Readings} {e : Expr} {i : Instr} {ty : Ty} (h : SameTree V e i ty)
    (free : FreeSorts) (s : Symbols) :
    (∃ err, ArityError err ∧ (e.encode.run.run free).1 = .error err ∧
      (i.encode.run.run s).1 = .error err) ∨
    ∃ t u, (e.encode.run.run free).1 = .ok t ∧ (i.encode.run.run s).1 = .ok u ∧
      ∀ env m m', V.Corresponding env m m' → e.sumsFit env = true →
        ∃ v v', m.eval t = .ok v ∧ m'.eval u = .ok v' ∧ SameResult ty v v' := by
  rw [e.encode_returns free, i.encode_fst s]
  refine h.both.imp_right ?_
  rintro ⟨t, u, hp⟩
  refine ⟨t, u, hp.term_eq, hp.instr_eq, fun env m m' hm hfit => ?_⟩
  obtain ⟨t', henc⟩ := e.exists_encodes hp.wellTyped
  obtain rfl : t = t' := Except.ok.inj (hp.term_eq.symm.trans henc.term_eq)
  have hty : (e.value env).ty = e.ty := Expr.ty_value hp.wellTyped env
  refine ⟨_, _, henc.eval_eq env m (h.follows hm) hfit, (h.instr_gives hm hp.wellTyped hp.instr_eq).eval_eq, ?_⟩
  rw [← h.ty_eq, ← hty]
  refine sameResult_of_scalar ?_
  rw [hty]
  exact Expr.hasSort_ty hp.wellTyped

/-- A read of the variable `X`. -/
def readOfX : Access := ⟨1, .read, .scalar .int, .ofPtr 1 true⟩

def readingOfX : Readings where
  Reads name ty a := name = "X" ∧ ty = .int ∧ a = readOfX
  hasSort := by
    rintro name ty a ⟨-, rfl, -⟩
    rfl
  shape_eq := by
    rintro name ty a ⟨-, rfl, rfl⟩
    rfl

/-- A sum below zero, as an expression. -/
def sumOfX : Expr := .nary 2 .add .int [.any 0 "X" .int, .lit 1 (.int (-5)) none, .any 0 "X" .int]

/-- The same sum as an instruction. -/
def sumOfReads : Instr := .nary .add .int [.seen readOfX, .lit (.int (-5)), .seen readOfX]

theorem sameTree_sumOfX : SameTree readingOfX sumOfX sumOfReads .int := by
  have hx : SameTree readingOfX (.any 0 "X" .int) (.seen readOfX) .int := .var ⟨rfl, rfl, rfl⟩
  have hlit : SameTree readingOfX (.lit 1 (.int (-5)) none) (.lit (.int (-5))) .int :=
    .lit (s := .int (-5)) rfl
  have hps : ∀ p ∈ [(Expr.any 0 "X" .int, Instr.seen readOfX), (.lit 1 (.int (-5)) none, .lit (.int (-5))),
      (.any 0 "X" .int, .seen readOfX)], SameTree readingOfX p.1 p.2 .int :=
    List.forall_mem_cons.2 ⟨hx, List.forall_mem_cons.2 ⟨hlit, List.forall_mem_singleton.2 hx⟩⟩
  have hsum := SameTree.nary (n := 2) (show Operator.add.isOver .int = true from rfl) hps
  exact hsum

theorem sumOfX_encodings_agree : SameTree readingOfX sumOfX sumOfReads .int ∧
    ∃ t u, (sumOfX.encode.run.run []).1 = .ok t ∧ (sumOfReads.encode.run.run (.ofConfig {})).1 = .ok u ∧
      Model.eval { consts := .ofList [("X", .int 2)] } t = .ok (.int (-1)) ∧
      Model.eval { consts := .ofList [(valueName 1, .bitVec 2 32)] } u = .ok (.bitVec 4294967295 32) := by
  refine ⟨sameTree_sumOfX, ?_⟩
  obtain ⟨err, -, hfail, -⟩ | ⟨t, u, ht, hu, heval⟩ := sameTree_sumOfX.encodings_agree [] (.ofConfig {})
  · cases hfail
  · have hm : readingOfX.Corresponding (.ofWords fun _ => 2) { consts := .ofList [("X", .int 2)] }
        { consts := .ofList [(valueName 1, .bitVec 2 32)] } := by
      rintro name ty a ⟨rfl, rfl, rfl⟩
      exact ⟨rfl, rfl⟩
    obtain ⟨v, v', hv, hv', hsame⟩ := heval _ _ _ hm (by decide)
    cases ht
    cases hsame with
    | int n =>
      obtain rfl : n = -1 := Value.int.inj (Except.ok.inj (hv.symm.trans rfl))
      exact ⟨_, u, rfl, hu, hv, hv'⟩

end Memory

end Symex
