import Symex.Expr.Encoding
import Symex.Proofs.TermSorts

/-!
Terms of expressions. Over `bool` and `int` an expression and its term say the same: chained
comparisons are conjunctions of links, casts are choices and disequalities, an operand alone stands for
its application, and a sum of integers is the wrapping sum as long as it is in the range of `int` and no
partial sum is clamped. The term does not depend on the free variables that were noted before.
-/

namespace Symex

open Smt (Term TermSort Value Model)

/-! ### Encoding without its notes -/

/-- Whatever has been noted before, a computation gives this result. -/
def Encoding.Returns {α : Type} (x : Encoding α) (r : Except Error α) : Prop :=
  ∀ free, (x.run.run free).1 = r

namespace Encoding.Returns

section
variable {α β : Type}

theorem pure (a : α) : Returns (Pure.pure a) (.ok a) := fun _ => rfl

theorem ofExcept (r : Except Error α) : Returns (liftM r) r := fun _ => rfl

theorem bind {x : Encoding α} {f : α → Encoding β} {r : Except Error α} {g : α → Except Error β}
    (hx : x.Returns r) (hf : ∀ a, (f a).Returns (g a)) : Returns (x >>= f) (r >>= g) :=
  run_bind_fst hx hf

end

end Encoding.Returns

namespace Expr

mutual
/-- The term of an expression, without the free variables that encoding notes. -/
def term : Expr → Except Error Term
  | .any _ name ty => do
    let s ← ty.termSort
    return .const name s
  | .lit _ value _ => value.term
  | .cast _ ty e => do
    let _ ← e.ty.termSort
    let _ ← ty.termSort
    return castTerm e.ty ty (← term e)
  | .unary _ _ e => return .not (← term e)
  | .ite _ c y n => do
    let c ← term c
    let y ← term y
    return .ite c y (← term n)
  | .nary _ op _ es => do op.applyTerms (← termAll es)
def termAll : List Expr → Except Error (List Term)
  | [] => return []
  | e :: es => do
    let t ← term e
    return t :: (← termAll es)
end

open Encoding (Returns)

mutual
theorem encode_returns (e : Expr) : e.encode.Returns e.term := by
  match e with
  | .any _ name ty =>
    -- the note that is taken of the variable does not show in the result
    exact .bind (.ofExcept ty.termSort) fun s free => rfl
  | .lit _ value _ => exact .ofExcept value.term
  | .cast _ ty e =>
    exact .bind (.ofExcept e.ty.termSort) fun _ => .bind (.ofExcept ty.termSort) fun _ =>
      .bind e.encode_returns fun t => .pure _
  | .unary _ op e => exact .bind e.encode_returns fun t => .pure _
  | .ite _ c y n =>
    exact .bind c.encode_returns fun _ => .bind y.encode_returns fun _ =>
      .bind n.encode_returns fun _ => .pure _
  | .nary _ op ty es => exact .bind (encodeAll_returns es) fun ts => .ofExcept _
theorem encodeAll_returns (es : List Expr) : (encodeAll es).Returns (termAll es) := by
  match es with
  | [] => exact .pure []
  | e :: es => exact .bind e.encode_returns fun t => .bind (encodeAll_returns es) fun ts => .pure _
end

end Expr

/-! ### Expressions over `bool` and `int` -/

/-- Whether a type has a sort. -/
def Ty.hasSort : Ty → Bool
  | .bool | .int => true
  | .char | .short => false

/-- Whether an operator applies to so many operands of a type. -/
def Operator.takes (op : Operator) (ty : Ty) (count : Nat) : Bool :=
  match op, ty with
  | .add, .int | .and, .bool | .or, .bool => 1 ≤ count
  | .eq, .bool | .eq, .int | .lt, .int => 2 ≤ count
  | _, _ => false

/-- All scalars denote integers of 32 bits. -/
theorem Scalar.toInt_bounds (s : Scalar) : -2147483648 ≤ s.toInt ∧ s.toInt ≤ 2147483647 := by
  cases s with
  | bool b => cases b <;> decide
  | char v =>
    have hlo := v.le_toInt
    have hhi := v.toInt_lt
    show -2147483648 ≤ v.toInt ∧ v.toInt ≤ 2147483647
    omega
  | short v =>
    have hlo := v.le_toInt
    have hhi := v.toInt_lt
    show -2147483648 ≤ v.toInt ∧ v.toInt ≤ 2147483647
    omega
  | int v =>
    have hlo := v.le_toInt
    have hhi := v.toInt_lt
    show -2147483648 ≤ v.toInt ∧ v.toInt ≤ 2147483647
    omega

/-- Whether all partial sums of integers, added to a first one, are integers of 32 bits. -/
def partialSumsFit (first : Int) : List Int → Bool
  | [] => true
  | i :: is =>
    (-2147483648 ≤ first + i && first + i ≤ 2147483647) && partialSumsFit (first + i) is

/-- Whether the whole sum of integers, added to a first one, is an integer of 32 bits, and all partial
sums are integers of 64 bits. -/
def sumStays (first : Int) : List Int → Bool
  | [] => -2147483648 ≤ first && first ≤ 2147483647
  | i :: is =>
    (-9223372036854775808 ≤ first + i && first + i ≤ 9223372036854775807) && sumStays (first + i) is

theorem sumStays_of_partialSumsFit {first : Int} {is : List Int} (hlo : -2147483648 ≤ first)
    (hhi : first ≤ 2147483647) (h : partialSumsFit first is = true) : sumStays first is = true := by
  induction is generalizing first with
  | nil => simp [sumStays, hlo, hhi]
  | cons i is ih =>
    obtain ⟨⟨hlo', hhi'⟩, hrest⟩ : (-2147483648 ≤ first + i ∧ first + i ≤ 2147483647) ∧
        partialSumsFit (first + i) is = true := by simpa [partialSumsFit] using h
    have hwide : -9223372036854775808 ≤ first + i ∧ first + i ≤ 9223372036854775807 := by omega
    simp [sumStays, hwide, ih hlo' hhi' hrest]

namespace Expr

mutual
/-- Whether every node has operands of the types it asks for; leaves and casts may have any type. -/
def fitted : Expr → Bool
  | .any _ _ _ | .lit _ _ _ => true
  | .cast _ _ e => fitted e
  | .unary _ op e => op = .not && e.ty = .bool && fitted e
  | .ite _ c y n => (c.ty = .bool && n.ty = y.ty) && (fitted c && (fitted y && fitted n))
  | .nary _ op ty es => op.takes ty es.length && fittedAll ty es
def fittedAll (ty : Ty) : List Expr → Bool
  | [] => true
  | e :: es => (e.ty = ty && fitted e) && fittedAll ty es
end

mutual
/-- Whether all leaves and casts are over `bool` and `int`. -/
def overSorts : Expr → Bool
  | .any _ _ ty => ty.hasSort
  | .lit _ value _ => value.ty.hasSort
  | .cast _ ty e => ty.hasSort && overSorts e
  | .unary _ _ e => overSorts e
  | .ite _ c y n => overSorts c && (overSorts y && overSorts n)
  | .nary _ _ _ es => overSortsAll es
def overSortsAll : List Expr → Bool
  | [] => true
  | e :: es => overSorts e && overSortsAll es
end

/-- Whether an expression is over `bool` and `int` only, and every node has operands of the types it
asks for. -/
def wellTyped (e : Expr) : Bool := e.fitted && e.overSorts

theorem fittedAll_iff {ty : Ty} {es : List Expr} :
    fittedAll ty es = true ↔ ∀ e ∈ es, e.ty = ty ∧ e.fitted = true := by
  induction es with
  | nil => simp [fittedAll]
  | cons e es ih => simp [fittedAll, ih]

theorem overSortsAll_iff {es : List Expr} : overSortsAll es = true ↔ ∀ e ∈ es, e.overSorts = true := by
  induction es with
  | nil => simp [overSortsAll]
  | cons e es ih => simp [overSortsAll, ih]

section
variable {n : Nat} {op : Operator} {ty : Ty} {e c y z : Expr} {es : List Expr}

theorem wellTyped_cast_iff : (cast n ty e).wellTyped = true ↔ ty.hasSort = true ∧ e.wellTyped = true := by
  simp only [wellTyped, fitted, overSorts, Bool.and_eq_true]
  exact and_left_comm

theorem wellTyped_unary_iff :
    (unary n op e).wellTyped = true ↔ (op = .not ∧ e.ty = .bool) ∧ e.wellTyped = true := by
  simp only [wellTyped, fitted, overSorts, Bool.and_eq_true, decide_eq_true_eq, and_assoc]

theorem wellTyped_ite_iff : (ite n c y z).wellTyped = true ↔
    (c.ty = .bool ∧ z.ty = y.ty) ∧ c.wellTyped = true ∧ y.wellTyped = true ∧ z.wellTyped = true := by
  simp only [wellTyped, fitted, overSorts, Bool.and_eq_true, decide_eq_true_eq]
  constructor
  · rintro ⟨⟨hty, hc, hy, hz⟩, hc', hy', hz'⟩
    exact ⟨hty, ⟨hc, hc'⟩, ⟨hy, hy'⟩, hz, hz'⟩
  · rintro ⟨hty, ⟨hc, hc'⟩, ⟨hy, hy'⟩, hz, hz'⟩
    exact ⟨⟨hty, hc, hy, hz⟩, hc', hy', hz'⟩

theorem wellTyped_nary_iff : (nary n op ty es).wellTyped = true ↔
    op.takes ty es.length = true ∧ ∀ e ∈ es, e.ty = ty ∧ e.wellTyped = true := by
  simp only [wellTyped, fitted, overSorts, Bool.and_eq_true, fittedAll_iff, overSortsAll_iff]
  constructor
  · rintro ⟨⟨htakes, hfit⟩, hsorts⟩
    exact ⟨htakes, fun e he => ⟨(hfit e he).1, (hfit e he).2, hsorts e he⟩⟩
  · rintro ⟨htakes, hes⟩
    exact ⟨⟨htakes, fun e he => ⟨(hes e he).1, (hes e he).2.1⟩⟩, fun e he => (hes e he).2.2⟩

end

mutual
/-- Whether the operands of every addition pass a test. -/
def sumsPass (test : List Int → Bool) (env : Env) : Expr → Bool
  | .any _ _ _ | .lit _ _ _ => true
  | .cast _ _ e | .unary _ _ e => sumsPass test env e
  | .ite _ c y n => sumsPass test env c && (sumsPass test env y && sumsPass test env n)
  | .nary _ op _ es =>
    (op ≠ .add || test (es.map fun e => (e.value env).toInt)) && sumsPassAll test env es
def sumsPassAll (test : List Int → Bool) (env : Env) : List Expr → Bool
  | [] => true
  | e :: es => sumsPass test env e && sumsPassAll test env es
end

/-- Whether no partial sum of an addition leaves the range of `int`. -/
def sumsFit (env : Env) (e : Expr) : Bool := e.sumsPass (partialSumsFit 0) env

theorem sumsPassAll_eq_all (test : List Int → Bool) (env : Env) (es : List Expr) :
    sumsPassAll test env es = es.all (sumsPass test env) := by
  induction es with
  | nil => rfl
  | cons e es ih => simp [sumsPassAll, ih]

section
variable {test test' : List Int → Bool} {env : Env}

mutual
/-- Operands are integers of 32 bits, so it is enough to compare tests on these. -/
theorem sumsPass_mono
    (h : ∀ is, (∀ i ∈ is, -2147483648 ≤ i ∧ i ≤ 2147483647) → test is = true → test' is = true)
    (e : Expr) (he : e.sumsPass test env = true) : e.sumsPass test' env = true := by
  match e with
  | .any _ _ _ => rfl
  | .lit _ _ _ => rfl
  | .cast _ _ e => exact sumsPass_mono h e he
  | .unary _ _ e => exact sumsPass_mono h e he
  | .ite _ c y n =>
    obtain ⟨hc, hy, hn⟩ : c.sumsPass test env = true ∧ y.sumsPass test env = true ∧
        n.sumsPass test env = true := by simpa [sumsPass] using he
    simp [sumsPass, sumsPass_mono h c hc, sumsPass_mono h y hy, sumsPass_mono h n hn]
  | .nary _ op _ es =>
    rw [sumsPass, Bool.and_eq_true, Bool.or_eq_true] at he
    rw [sumsPass, Bool.and_eq_true, Bool.or_eq_true]
    refine ⟨he.1.imp_right (h _ fun i hi => ?_), sumsPassAll_mono h es he.2⟩
    obtain ⟨e, -, rfl⟩ := List.mem_map.1 hi
    exact Scalar.toInt_bounds _
theorem sumsPassAll_mono
    (h : ∀ is, (∀ i ∈ is, -2147483648 ≤ i ∧ i ≤ 2147483647) → test is = true → test' is = true)
    (es : List Expr) (hes : sumsPassAll test env es = true) :
    sumsPassAll test' env es = true := by
  match es with
  | [] => rfl
  | e :: es =>
    obtain ⟨he, hes⟩ : e.sumsPass test env = true ∧ sumsPassAll test env es = true := by
      simpa [sumsPassAll] using hes
    simp [sumsPassAll, sumsPass_mono h e he, sumsPassAll_mono h es hes]
end

end

/-- An expression whose nodes fit denotes a scalar of its type. -/
theorem ty_value_of_fitted {e : Expr} (h : e.fitted = true) (env : Env) : (e.value env).ty = e.ty := by
  match e with
  | .any _ name ty => exact env.ty_value name ty
  | .lit _ value _ => rfl
  | .cast _ ty e => exact Scalar.ty_convert _ ty
  | .unary _ op e => rfl
  | .ite _ c y n =>
    obtain ⟨⟨-, hty⟩, -, hy, hn⟩ : (c.ty = .bool ∧ n.ty = y.ty) ∧ c.fitted = true ∧
        y.fitted = true ∧ n.fitted = true := by simpa [fitted] using h
    rw [value]
    split
    · exact ty_value_of_fitted hy env
    · rw [ty_value_of_fitted hn env]
      exact hty
  | .nary _ op ty es =>
    rw [value_nary]
    exact Operator.ty_native op ty _

theorem ty_value {e : Expr} (h : e.wellTyped = true) (env : Env) : (e.value env).ty = e.ty :=
  ty_value_of_fitted (Bool.and_eq_true_iff.1 h).1 env

end Expr

/-! ### Values -/

/-- A scalar as a value over booleans and unbounded integers. -/
def Smt.Value.ofNative : Scalar → Value
  | .bool b => .bool b
  | s => .int s.toInt

/-- A model in which constants have the values of the free variables of an expression. -/
def Smt.Model.Follows (m : Model) (env : Env) (e : Expr) : Prop :=
  ∀ v ∈ e.occurrences, m.get? v.1 = some (.ofNative (env.value v.1 v.2))

namespace Scalar

theorem eq_bool_of_ty {s : Scalar} (h : s.ty = .bool) : s = .bool s.isTrue := by
  cases s with
  | bool b => rw [isTrue_bool]
  | char v => cases h
  | short v => cases h
  | int v => cases h

theorem eq_int_of_ty {s : Scalar} (h : s.ty = .int) : s = .int s.promoted := by
  cases s with
  | bool b => cases h
  | char v => cases h
  | short v => cases h
  | int v => rw [promoted_int]

end Scalar

/-! ### Sums -/

/-- A sum that stays is clamped nowhere and is the wrapping sum of the words. -/
theorem foldl_clampedAdd (vs : List (BitVec 32)) (first : Int)
    (h : sumStays first (vs.map BitVec.toInt) = true) :
    (vs.map BitVec.toInt).foldl Smt.clampedAdd first =
      (BitVec.ofInt 32 first + vs.foldr (· + ·) 0#32).toInt := by
  induction vs generalizing first with
  | nil =>
    obtain ⟨hlo, hhi⟩ : -2147483648 ≤ first ∧ first ≤ 2147483647 := by simpa [sumStays] using h
    show first = (BitVec.ofInt 32 first + 0#32).toInt
    rw [BitVec.add_zero, BitVec.toInt_ofInt]
    exact (Int.bmod_eq_of_le (by omega) (by omega)).symm
  | cons v vs ih =>
    obtain ⟨⟨hlo, hhi⟩, hrest⟩ : (-9223372036854775808 ≤ first + v.toInt ∧
        first + v.toInt ≤ 9223372036854775807) ∧
        sumStays (first + v.toInt) (vs.map BitVec.toInt) = true := by
      simpa [sumStays] using h
    have hclamp : Smt.clampedAdd first v.toInt = first + v.toInt := by
      rw [Smt.clampedAdd]
      omega
    rw [List.map_cons, List.foldl_cons, hclamp, ih _ hrest, BitVec.ofInt_add, BitVec.ofInt_toInt,
      List.foldr_cons, BitVec.add_assoc]

namespace Smt.Model

variable {m : Model}

theorem evalInts_map {α : Type} {l : List α} {f : α → Term} {value : α → Int}
    (h : ∀ x ∈ l, m.eval (f x) = .ok (.int (value x))) :
    m.evalInts (l.map f) = .ok (l.map value) := by
  induction l with
  | nil => rfl
  | cons x l ih =>
    rw [List.map_cons, evalInts, int_bind_eq_ok]
    exact ⟨_, h x (by simp), bind_eq_ok.2 ⟨_, ih fun y hy => h y (List.mem_cons_of_mem _ hy), rfl⟩⟩

end Smt.Model

/-! ### Operators -/

namespace Operator

theorem hasSort_resultTy {op : Operator} {ty : Ty} {count : Nat} (h : op.takes ty count = true) :
    (op.resultTy ty).hasSort = true := by
  cases op <;> cases ty <;> simp [takes] at h <;> rfl

theorem exists_applyTerms {op : Operator} {ty : Ty} {ts : List Term}
    (h : op.takes ty ts.length = true) : ∃ t, op.applyTerms ts = .ok t := by
  match ts with
  | [] => cases op <;> cases ty <;> simp [takes] at h
  | [t] => cases op <;> cases ty <;> simp [takes] at h <;> simp [applyTerms, identity]
  | x :: y :: ts => cases op <;> cases ty <;> simp [takes] at h <;> simp [applyTerms]

/-- What an operator makes of as many terms as it takes. -/
theorem applyTerms_cases {op : Operator} {ty : Ty} {ts : List Term}
    (h : op.takes ty ts.length = true) {t : Term} (ht : op.applyTerms ts = .ok t) :
    (ts = [t] ∧ (op = .add ∧ ty = .int ∨ (op = .and ∨ op = .or) ∧ ty = .bool)) ∨
    (op = .add ∧ ty = .int ∧ t = .add ts) ∨
    (op = .and ∧ ty = .bool ∧ t = .and ts) ∨
    (op = .or ∧ ty = .bool ∧ t = .or ts) ∨
    (op = .eq ∧ (ty = .bool ∨ ty = .int) ∧ t = .chain .eq ts) ∨
    (op = .lt ∧ ty = .int ∧ t = .chain .lt ts) := by
  match ts with
  | [] => cases ht
  | [u] =>
    cases op <;> cases ty <;> simp [takes] at h <;> simp [applyTerms, identity] at ht <;> simp [ht]
  | x :: y :: ts =>
    cases op <;> cases ty <;> simp [takes] at h <;> simp [applyTerms] at ht <;> simp [ht]

theorem native_singleton {op : Operator} {ty : Ty} {v : Scalar} (hv : v.ty = ty)
    (h : op = .add ∧ ty = .int ∨ (op = .and ∨ op = .or) ∧ ty = .bool) : op.native ty [v] = v := by
  rcases h with ⟨rfl, rfl⟩ | ⟨rfl | rfl, rfl⟩
  · rw [Scalar.eq_int_of_ty hv]
    simp [native, Scalar.convert_of_ty (show (Scalar.int _).ty = .int from rfl)]
  · rw [Scalar.eq_bool_of_ty hv]
    simp [native]
  · rw [Scalar.eq_bool_of_ty hv]
    simp [native]

theorem sort_applyTerms {op : Operator} {ty : Ty} {ts : List Term}
    (h : op.takes ty ts.length = true) (hts : ∀ u ∈ ts, u.sort = ty.termSort) {t : Term}
    (ht : op.applyTerms ts = .ok t) : t.sort = (op.resultTy ty).termSort := by
  obtain ⟨rfl, hop⟩ | ⟨rfl, rfl, rfl⟩ | ⟨rfl, rfl, rfl⟩ | ⟨rfl, rfl, rfl⟩ | ⟨rfl, -, rfl⟩ |
    ⟨rfl, rfl, rfl⟩ := applyTerms_cases h ht
  · rw [hts t (by simp)]
    rcases hop with ⟨rfl, rfl⟩ | ⟨rfl | rfl, rfl⟩ <;> rfl
  · rfl
  · rfl
  · rfl
  · exact Term.sort_chain fun _ _ => rfl
  · exact Term.sort_chain fun _ _ => rfl

section
variable {m : Model} {l : List (Term × Scalar)}

theorem eval_sum (heval : ∀ p ∈ l, m.eval p.1 = .ok (.int p.2.promoted.toInt))
    (hty : ∀ p ∈ l, p.2.ty = .int) (hsum : sumStays 0 (l.map (·.2.toInt)) = true) :
    m.eval (.add (l.map (·.1))) = .ok (.ofNative (native .add .int (l.map (·.2)))) := by
  have hint : ∀ p ∈ l, p.2.toInt = p.2.promoted.toInt := by
    intro p hp
    conv => lhs; rw [Scalar.eq_int_of_ty (hty p hp)]
    rfl
  have hmap : l.map (·.2.toInt) = (l.map (·.2.promoted)).map BitVec.toInt := by
    rw [List.map_map]
    exact List.map_congr_left hint
  have hfold := foldl_clampedAdd (l.map (·.2.promoted)) 0 (by rw [← hmap]; exact hsum)
  rw [Smt.Model.eval, Smt.Model.evalInts_map heval]
  show Except.ok (Value.int ((l.map fun p => p.2.promoted.toInt).foldl Smt.clampedAdd 0)) = _
  rw [List.map_map] at hfold
  simpa [native, Scalar.convert_of_ty (show (Scalar.int _).ty = .int from rfl), Value.ofNative,
    Scalar.toInt, Function.comp_def] using hfold

/-- Scalars of one type with a sort are equal as values if their words are. -/
theorem ofNative_eq_iff {a b : Scalar} {ty : Ty} (hty : ty = .bool ∨ ty = .int) (ha : a.ty = ty)
    (hb : b.ty = ty) : Value.ofNative a = Value.ofNative b ↔ a.promoted = b.promoted := by
  rcases hty with rfl | rfl
  · rw [Scalar.eq_bool_of_ty ha, Scalar.eq_bool_of_ty hb]
    cases a.isTrue <;> cases b.isTrue <;> decide
  · rw [Scalar.eq_int_of_ty ha, Scalar.eq_int_of_ty hb]
    simp [Value.ofNative, Scalar.toInt, BitVec.toInt_inj]

/-- **An operator over terms evaluates to the operator over their values.** -/
theorem eval_applyTerms {op : Operator} {ty : Ty} (h : op.takes ty l.length = true)
    (hl : ∀ p ∈ l, m.eval p.1 = .ok (.ofNative p.2) ∧ p.2.ty = ty)
    (hsum : op = .add → sumStays 0 (l.map (·.2.toInt)) = true) {t : Term}
    (ht : op.applyTerms (l.map (·.1)) = .ok t) :
    m.eval t = .ok (.ofNative (op.native ty (l.map (·.2)))) := by
  have hbool : ty = .bool → ∀ p ∈ l, m.eval p.1 = .ok (.bool p.2.isTrue) := by
    rintro rfl p hp
    rw [(hl p hp).1, Scalar.eq_bool_of_ty (hl p hp).2]
    simp [Value.ofNative]
  have hint : ty = .int → ∀ p ∈ l, m.eval p.1 = .ok (.int p.2.promoted.toInt) := by
    rintro rfl p hp
    rw [(hl p hp).1, Scalar.eq_int_of_ty (hl p hp).2]
    simp [Value.ofNative, Scalar.toInt]
  have htakes : op.takes ty (l.map (·.1)).length = true := by simpa using h
  obtain ⟨hx, hop⟩ | ⟨rfl, rfl, rfl⟩ | ⟨rfl, rfl, rfl⟩ | ⟨rfl, rfl, rfl⟩ | ⟨rfl, hty, rfl⟩ |
    ⟨rfl, rfl, rfl⟩ := applyTerms_cases htakes ht
  · obtain ⟨p, rfl, rfl⟩ := List.map_eq_singleton_iff.1 hx
    rw [List.map_singleton, native_singleton (hl p (by simp)).2 hop]
    exact (hl p (by simp)).1
  · exact eval_sum (hint rfl) (fun p hp => (hl p hp).2) (hsum rfl)
  · rw [Smt.Model.eval, Smt.Model.evalBools_map (hbool rfl)]
    simp [native, bind, Except.bind, pure, Except.pure, Value.ofNative, Function.comp_def]
  · rw [Smt.Model.eval, Smt.Model.evalBools_map (hbool rfl)]
    simp [native, bind, Except.bind, pure, Except.pure, Value.ofNative, Function.comp_def]
  · rw [Model.eval_chain (r := fun p q => p.2.promoted == q.2.promoted) fun p hp q hq => ?_]
    · simp [native, chained_map, Value.ofNative]
    · rw [Smt.Model.eval_eq (hl p hp).1 (hl q hq).1]
      simp only [ofNative_eq_iff hty (hl p hp).2 (hl q hq).2]
      rfl
  · rw [Model.eval_chain (r := fun p q => p.2.promoted.slt q.2.promoted) fun p hp q hq => ?_]
    · simp [native, chained_map, Value.ofNative]
    · rw [Smt.Model.eval_lt (hint rfl p hp) (hint rfl q hq), BitVec.slt_eq_decide]

end

end Operator

/-! ### Casts -/

theorem sort_castTerm {ty ty' : Ty} (h : ty.hasSort = true) (h' : ty'.hasSort = true) {t : Term}
    (ht : t.sort = ty.termSort) : (castTerm ty ty' t).sort = ty'.termSort := by
  cases ty <;> cases ty' <;> simp_all [Ty.hasSort, castTerm, Term.sort, Ty.termSort]

/-- A cast between sorts is a choice between one and zero, or the test against zero. -/
theorem eval_castTerm {m : Model} {t : Term} {v : Scalar} (ht : m.eval t = .ok (.ofNative v))
    (hv : v.ty.hasSort = true) {ty : Ty} (hty : ty.hasSort = true) :
    m.eval (castTerm v.ty ty t) = .ok (.ofNative (v.convert ty)) := by
  by_cases hsame : v.ty = ty
  · subst hsame
    rw [Scalar.convert_ty, ← ht]
    cases v <;> rfl
  · cases v with
    | char w => cases hv
    | short w => cases hv
    | bool b =>
      obtain rfl : ty = .int := by cases ty <;> simp_all [Ty.hasSort, Scalar.ty]
      show m.eval (.ite t (.int 1) (.int 0)) = _
      rw [Smt.Model.eval]
      refine Smt.Model.bool_bind_eq_ok.2 ⟨b, ht, ?_⟩
      cases b <;> rfl
    | int w =>
      obtain rfl : ty = .bool := by cases ty <;> simp_all [Ty.hasSort, Scalar.ty]
      show m.eval (.not (.eq t (.int 0))) = _
      rw [Smt.Model.eval]
      refine Smt.Model.bool_bind_eq_ok.2 ⟨_, Smt.Model.eval_eq ht rfl, ?_⟩
      show _ = Except.ok (Value.bool (!decide (w.toInt = 0)))
      simp only [Value.ofNative, Scalar.toInt, Value.int.injEq]
      rfl

/-! ### Expressions -/

/-- Elements that each have a partner, as a list of pairs. -/
theorem exists_pairs {α β : Type} {P : α → β → Prop} {l : List α} (h : ∀ a ∈ l, ∃ b, P a b) :
    ∃ ps : List (α × β), ps.map (·.1) = l ∧ ∀ p ∈ ps, P p.1 p.2 := by
  induction l with
  | nil => exact ⟨[], rfl, by simp⟩
  | cons a l ih =>
    obtain ⟨b, hb⟩ := h a (by simp)
    obtain ⟨ps, hps, hP⟩ := ih fun x hx => h x (List.mem_cons_of_mem _ hx)
    refine ⟨(a, b) :: ps, by rw [List.map_cons, hps], ?_⟩
    rw [List.forall_mem_cons]
    exact ⟨hb, hP⟩

namespace Expr

/-- A term that has the sort of the expression's type and, where sums fit, its value. -/
structure Encodes (e : Expr) (t : Term) : Prop where
  term_eq : e.term = .ok t
  sort_eq : t.sort = e.ty.termSort
  eval_of_stay : ∀ env m, Model.Follows m env e → e.sumsPass (sumStays 0) env = true →
    m.eval t = .ok (.ofNative (e.value env))

theorem Encodes.eval_eq {e : Expr} {t : Term} (h : e.Encodes t) (env : Env) (m : Model)
    (hm : Model.Follows m env e) (hfit : e.sumsFit env = true) :
    m.eval t = .ok (.ofNative (e.value env)) :=
  h.eval_of_stay env m hm <| sumsPass_mono
    (fun _ _ => sumStays_of_partialSumsFit (by decide) (by decide)) e hfit

theorem termAll_eq_ok {ps : List (Expr × Term)} (h : ∀ p ∈ ps, p.1.term = .ok p.2) :
    termAll (ps.map (·.1)) = .ok (ps.map (·.2)) := by
  induction ps with
  | nil => rfl
  | cons p ps ih =>
    rw [List.forall_mem_cons] at h
    rw [List.map_cons, termAll, h.1, ih h.2]
    rfl

theorem exists_termSort {ty : Ty} (h : ty.hasSort = true) : ∃ s, ty.termSort = .ok s := by
  cases ty with
  | bool => exact ⟨_, rfl⟩
  | int => exact ⟨_, rfl⟩
  | char => cases h
  | short => cases h

theorem hasSort_ty {e : Expr} (h : e.wellTyped = true) : e.ty.hasSort = true := by
  match e with
  | .any _ name ty => exact h
  | .lit _ value _ => exact h
  | .cast _ ty e => exact (wellTyped_cast_iff.1 h).1
  | .unary _ op e => rfl
  | .ite _ c y n =>
    obtain ⟨-, -, hy, -⟩ := wellTyped_ite_iff.1 h
    show y.ty.hasSort = true
    exact hasSort_ty hy
  | .nary _ op ty es =>
    obtain ⟨htakes, -⟩ := wellTyped_nary_iff.1 h
    exact Operator.hasSort_resultTy htakes

/-- Where every operand has a value, so has the application. -/
theorem nary_encodes {op : Operator} {ty : Ty} {ps : List (Expr × Term)}
    (htakes : op.takes ty ps.length = true)
    (hps : ∀ p ∈ ps, p.1.Encodes p.2 ∧ p.1.ty = ty ∧ p.1.wellTyped = true) (n : Nat) :
    ∃ t, (Expr.nary n op ty (ps.map (·.1))).Encodes t := by
  obtain ⟨t, ht⟩ : ∃ t, op.applyTerms (ps.map (·.2)) = .ok t :=
    Operator.exists_applyTerms (by simpa using htakes)
  refine ⟨t, ?_, ?_, fun env m hm hfit => ?_⟩
  · rw [term, termAll_eq_ok fun p hp => (hps p hp).1.term_eq]
    exact ht
  · refine Operator.sort_applyTerms (by simpa using htakes) (fun u hu => ?_) ht
    obtain ⟨p, hp, rfl⟩ := List.mem_map.1 hu
    rw [(hps p hp).1.sort_eq, (hps p hp).2.1]
  · obtain ⟨hsum, hall⟩ : (op = .add → sumStays 0 (ps.map fun p => (p.1.value env).toInt) = true) ∧
        ∀ p ∈ ps, p.1.sumsPass (sumStays 0) env = true := by
      simpa [sumsPass, sumsPassAll_eq_all, Decidable.imp_iff_not_or, Function.comp_def] using hfit
    have hl : ∀ q ∈ ps.map fun p => (p.2, p.1.value env),
        m.eval q.1 = .ok (.ofNative q.2) ∧ q.2.ty = ty := by
      intro q hq
      obtain ⟨p, hp, rfl⟩ := List.mem_map.1 hq
      obtain ⟨he, hty, hwt⟩ := hps p hp
      refine ⟨he.eval_of_stay env m (fun v hv => hm v ?_) (hall p hp), (ty_value hwt env).trans hty⟩
      rw [occurrences, occurrencesAll_eq_flatMap]
      exact List.mem_flatMap.2 ⟨p.1, List.mem_map_of_mem hp, hv⟩
    have ht' : op.applyTerms ((ps.map fun p => (p.2, p.1.value env)).map (·.1)) = .ok t := by
      simpa [Function.comp_def] using ht
    have hsum' : op = .add →
        sumStays 0 ((ps.map fun p => (p.2, p.1.value env)).map (·.2.toInt)) = true := by
      simpa [Function.comp_def] using hsum
    simpa [Function.comp_def] using Operator.eval_applyTerms (by simpa using htakes) hl hsum' ht'

mutual
/-- **Well-typed expressions have terms**, of the sort of their type and with their value. -/
theorem exists_encodes (e : Expr) (h : e.wellTyped = true) : ∃ t, e.Encodes t := by
  match e with
  | .any n name ty =>
    obtain ⟨s, hs⟩ : ∃ s, ty.termSort = .ok s := exists_termSort h
    refine ⟨.const name s, ?_, hs.symm, fun env m hm _ => ?_⟩
    · rw [term, hs]
      rfl
    · have hget : m.get? name = some (.ofNative (env.value name ty)) :=
        hm (name, ty) (by simp [occurrences])
      rw [Smt.Model.eval, hget, value]
  | .lit n v name =>
    cases v with
    | bool b => exact ⟨.bool b, rfl, rfl, fun _ _ _ _ => rfl⟩
    | int w => exact ⟨.int w.toInt, rfl, rfl, fun _ _ _ _ => rfl⟩
    | char w => cases h
    | short w => cases h
  | .cast n ty e =>
    obtain ⟨hty, hwt⟩ := wellTyped_cast_iff.1 h
    obtain ⟨t, he⟩ := exists_encodes e hwt
    have hfrom := hasSort_ty hwt
    obtain ⟨s, hs⟩ := exists_termSort hfrom
    obtain ⟨s', hs'⟩ := exists_termSort hty
    refine ⟨castTerm e.ty ty t, ?_, sort_castTerm hfrom hty he.sort_eq, fun env m hm hfit => ?_⟩
    · rw [term, hs, hs', he.term_eq]
      rfl
    · have hv := ty_value hwt env
      rw [← hv, value]
      exact eval_castTerm (he.eval_of_stay env m hm hfit) (by rw [hv]; exact hfrom) hty
  | .unary n op e =>
    obtain ⟨⟨-, hty⟩, hwt⟩ := wellTyped_unary_iff.1 h
    obtain ⟨t, he⟩ := exists_encodes e hwt
    refine ⟨.not t, ?_, rfl, fun env m hm hfit => ?_⟩
    · rw [term, he.term_eq]
      rfl
    · have hv := he.eval_of_stay env m hm hfit
      rw [Scalar.eq_bool_of_ty ((ty_value hwt env).trans hty)] at hv
      rw [Smt.Model.eval]
      exact Smt.Model.bool_bind_eq_ok.2 ⟨_, hv, rfl⟩
  | .ite n c y z =>
    obtain ⟨⟨hc, hty⟩, hwc, hwy, hwz⟩ := wellTyped_ite_iff.1 h
    obtain ⟨tc, hec⟩ := exists_encodes c hwc
    obtain ⟨ty, hey⟩ := exists_encodes y hwy
    obtain ⟨tz, hez⟩ := exists_encodes z hwz
    refine ⟨.ite tc ty tz, ?_, hey.sort_eq, fun env m hm hfit => ?_⟩
    · rw [term, hec.term_eq, hey.term_eq, hez.term_eq]
      rfl
    · obtain ⟨hfc, hfy, hfz⟩ : c.sumsPass (sumStays 0) env = true ∧ y.sumsPass (sumStays 0) env = true ∧
          z.sumsPass (sumStays 0) env = true := by simpa [sumsPass] using hfit
      have hvc := hec.eval_of_stay env m (fun v hv => hm v (by simp [occurrences, hv])) hfc
      have hvy := hey.eval_of_stay env m (fun v hv => hm v (by simp [occurrences, hv])) hfy
      have hvz := hez.eval_of_stay env m (fun v hv => hm v (by simp [occurrences, hv])) hfz
      rw [Scalar.eq_bool_of_ty ((ty_value hwc env).trans hc)] at hvc
      rw [Smt.Model.eval, value]
      refine Smt.Model.bool_bind_eq_ok.2 ⟨_, hvc, ?_⟩
      split
      · exact hvy
      · exact hvz
  | .nary n op ty es =>
    obtain ⟨htakes, hes⟩ := wellTyped_nary_iff.1 h
    obtain ⟨ps, rfl, hps⟩ := exists_pairs (exists_encodes_all es fun e he => (hes e he).2)
    refine nary_encodes (by simpa using htakes) (fun p hp => ⟨hps p hp, ?_⟩) n
    exact hes p.1 (List.mem_map_of_mem hp)
theorem exists_encodes_all (es : List Expr) (h : ∀ e ∈ es, e.wellTyped = true) :
    ∀ e ∈ es, ∃ t, e.Encodes t := by
  match es with
  | [] => simp
  | e :: es =>
    obtain ⟨he, hes⟩ := List.forall_mem_cons.1 h
    rw [List.forall_mem_cons]
    exact ⟨exists_encodes e he, exists_encodes_all es hes⟩
end

/-- The model that gives the free variables of an expression their values. -/
def modelOf (env : Env) (e : Expr) : Model :=
  { consts := .ofList (e.occurrences.map fun v => (v.1, .ofNative (env.value v.1 v.2))) }

/-- An expression has a model if no name stands for variables of two types. -/
theorem follows_modelOf {e : Expr}
    (h : ∀ v ∈ e.occurrences, ∀ w ∈ e.occurrences, v.1 = w.1 → v.2 = w.2) (env : Env) :
    (e.modelOf env).Follows env e := by
  intro v hv
  refine Table.find?_ofList (List.mem_map.2 ⟨v, hv, rfl⟩) fun x hx hname => ?_
  obtain ⟨w, hw, rfl⟩ := List.mem_map.1 hx
  rw [show w.1 = v.1 from hname, h w hw v hv hname]

/-- **Encoding keeps the meaning.** A well-typed expression has a term, of the sort of its type. Under
values of the free variables for which sums fit, the term evaluates to what the expression denotes. -/
theorem encode_evaluates_natively (e : Expr) (h : e.wellTyped = true) (free : FreeSorts) :
    ∃ t, (e.encode.run.run free).1 = .ok t ∧
      (e.ty = .bool ∧ t.sort = .ok .bool ∨ e.ty = .int ∧ t.sort = .ok .int) ∧
      ∀ env m, Model.Follows m env e → e.sumsFit env = true →
        m.eval t = .ok (.ofNative (e.value env)) := by
  obtain ⟨t, ht⟩ := exists_encodes e h
  refine ⟨t, (encode_returns e free).trans ht.term_eq, ?_, ht.eval_eq⟩
  have hsort := hasSort_ty h
  rw [ht.sort_eq]
  cases hty : e.ty with
  | bool => exact .inl ⟨rfl, rfl⟩
  | int => exact .inr ⟨rfl, rfl⟩
  | char => simp [hty, Ty.hasSort] at hsort
  | short => simp [hty, Ty.hasSort] at hsort

/-- The choice between a sum and nothing, by a chain of comparisons. -/
def guardedSum : Expr :=
  .ite 7 (.nary 4 .lt .int [.any 1 "X" .int, .any 2 "Y" .int, .lit 3 (.int 9) none])
    (.nary 6 .add .int [.any 1 "X" .int, .cast 5 .int (.any 0 "B" .bool), .any 2 "Y" .int])
    (.lit 8 (.int 0) none)

theorem guardedSum_evaluates_natively :
    ∃ t, (guardedSum.encode.run.run []).1 = .ok t ∧
      (guardedSum.modelOf (.ofWords fun name => if name = "Y" then 4 else 3)).eval t = .ok (.int 8) := by
  obtain ⟨t, ht, -, heval⟩ := encode_evaluates_natively guardedSum (by decide) []
  refine ⟨t, ht, ?_⟩
  rw [heval _ _ (follows_modelOf (by decide) _) (by decide)]
  rfl

end Expr

end Symex
