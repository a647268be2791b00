import Symex.Proofs.TermStructure

/-!
Sorts of values and of terms. Words fit their width, and arrays have keys of the index width and elements of
one sort. The sort that a term is said to have looks at some of its operands only; a term is well-sorted if all
operands, at every depth, have the sorts that their operators ask for (`HasSort`).
-/

namespace Symex.Smt

/-! ### Words -/

namespace Word

theorem setWidth_ofInt {n : Nat} (h : n ≤ 64) (i : Int) :
    (BitVec.ofInt 64 i).setWidth n = BitVec.ofInt n i := by
  apply BitVec.eq_of_toInt_eq
  rw [BitVec.toInt_setWidth, BitVec.toInt_ofInt, BitVec.toNat_ofInt]
  have hpos : (0 : Int) ≤ i % (2 ^ 64 : Nat) := Int.emod_nonneg _ (by decide)
  rw [Int.toNat_of_nonneg hpos]
  have hdvd : ((2 ^ n : Nat) : Int) ∣ ((2 ^ 64 : Nat) : Int) :=
    Int.natCast_dvd_natCast.2 (Nat.pow_dvd_pow 2 h)
  rw [← Int.emod_bmod, Int.emod_emod_of_dvd i hdvd, Int.emod_bmod]

/-- A pattern that is held in a word fits its width. -/
theorem lowBits_setWidth {n : Nat} (h : n ≤ 64) (x : BitVec n) :
    lowBits (x.setWidth 64) n = x.setWidth 64 := by
  rw [lowBits, BitVec.setWidth_setWidth_of_le x h, BitVec.setWidth_eq]

theorem lowBits_ofInt {n : Nat} (h : n ≤ 64) (i : Int) :
    lowBits (BitVec.ofInt 64 i) n = (BitVec.ofInt n i).setWidth 64 := by
  rw [lowBits, setWidth_ofInt h]

theorem lowBits_add {n : Nat} (h : n ≤ 64) (x y : Word) :
    lowBits (x + y) n = (x.setWidth n + y.setWidth n).setWidth 64 := by
  rw [lowBits, BitVec.setWidth_add x y h]

theorem signed_eq {n : Nat} (h : 0 < n) (h' : n < 64) (x : Word) : x.signed n = (x.setWidth n).toInt := by
  rw [signed, if_neg (by omega)]

end Word

/-! ### Sorts of values -/

/-- Values of a sort. Words fit their width, and arrays have keys of the index width. -/
inductive Value.HasSort : Value → TermSort → Prop where
  | bool (b : Bool) : HasSort (.bool b) .bool
  | int (i : Int) : HasSort (.int i) .int
  | bitVec {v : Word} {w : Nat} (h : v.lowBits w = v) : HasSort (.bitVec v w) (.bitVec w)
  | array {d : Value} {es : List (Word × Value)} {element : TermSort} (hd : HasSort d element)
      (hkeys : ∀ e ∈ es, e.1.lowBits TermSort.indexWidth = e.1) (hes : ∀ e ∈ es, HasSort e.2 element) :
      HasSort (.array d es) (.arrayOf element)

/-! ### Well-sorted terms -/

/-- Terms of a sort, when functions are known with the sorts of their arguments and of their values. -/
inductive Term.HasSort (known : String → List TermSort → TermSort → Prop) : Term → TermSort → Prop
  | bool (b : Bool) : HasSort known (.bool b) .bool
  | int (i : Int) : HasSort known (.int i) .int
  | bitVec {v : Word} {w : Nat} (hw : 0 < w) (h : v.lowBits w = v) : HasSort known (.bitVec v w) (.bitVec w)
  | const (name : String) (s : TermSort) : HasSort known (.const name s) s
  | apply {f : String} {args : List Term} {ss : List TermSort} {s : TermSort} (hf : known f ss s)
    (hlen : args.length = ss.length) (h : ∀ p ∈ args.zip ss, HasSort known p.1 p.2) :
    HasSort known (.apply f args s) s
  | not {t : Term} (h : HasSort known t .bool) : HasSort known (.not t) .bool
  | and {ts : List Term} (h : ∀ t ∈ ts, HasSort known t .bool) : HasSort known (.and ts) .bool
  | or {ts : List Term} (h : ∀ t ∈ ts, HasSort known t .bool) : HasSort known (.or ts) .bool
  | implies {a b : Term} (ha : HasSort known a .bool) (hb : HasSort known b .bool) :
    HasSort known (.implies a b) .bool
  | eq {a b : Term} {s : TermSort} (ha : HasSort known a s) (hb : HasSort known b s) :
    HasSort known (.eq a b) .bool
  | distinct {ts : List Term} {s : TermSort} (h : ∀ t ∈ ts, HasSort known t s) :
    HasSort known (.distinct ts) .bool
  | ite {c t e : Term} {s : TermSort} (hc : HasSort known c .bool) (ht : HasSort known t s)
    (he : HasSort known e s) : HasSort known (.ite c t e) s
  | lt {a b : Term} (ha : HasSort known a .int) (hb : HasSort known b .int) : HasSort known (.lt a b) .bool
  | gt {a b : Term} (ha : HasSort known a .int) (hb : HasSort known b .int) : HasSort known (.gt a b) .bool
  | add {ts : List Term} (h : ∀ t ∈ ts, HasSort known t .int) : HasSort known (.add ts) .int
  | bvAdd {a b : Term} {w : Nat} (ha : HasSort known a (.bitVec w)) (hb : HasSort known b (.bitVec w)) :
    HasSort known (.bvAdd a b) (.bitVec w)
  | bvNot {t : Term} {w : Nat} (h : HasSort known t (.bitVec w)) : HasSort known (.bvNot t) (.bitVec w)
  | bvSlt {a b : Term} {w : Nat} (ha : HasSort known a (.bitVec w)) (hb : HasSort known b (.bitVec w)) :
    HasSort known (.bvSlt a b) .bool
  | signExtend {t : Term} {w : Nat} (bits : Nat) (h : HasSort known t (.bitVec w)) :
    HasSort known (.signExtend bits t) (.bitVec (w + bits))
  | select {a i : Term} {k s : TermSort} (ha : HasSort known a (.array k s)) (hi : HasSort known i k) :
    HasSort known (.select a i) s
  | store {a i v : Term} {k s : TermSort} (ha : HasSort known a (.array k s)) (hi : HasSort known i k)
    (hv : HasSort known v s) : HasSort known (.store a i v) (.array k s)
  | constArray {v : Term} (k : TermSort) {s : TermSort} (h : HasSort known v s) :
    HasSort known (.constArray (.array k s) v) (.array k s)

namespace Term

variable {known : String → List TermSort → TermSort → Prop} {t : Term} {s s' : TermSort} {ts : List Term}

/-- The sort that a well-sorted term is said to have is its sort. -/
theorem HasSort.sort_eq (h : t.HasSort known s) : t.sort = .ok s := by
  induction h with
  | ite _ _ _ _ iht _ => exact iht
  | bvAdd _ _ iha _ => exact iha
  | bvNot _ ih => exact ih
  | signExtend bits _ ih =>
    rw [sort, ih]
    rfl
  | select _ _ iha _ =>
    rw [sort, iha]
    rfl
  | store _ _ _ iha _ _ => exact iha
  | _ => rfl

theorem HasSort.unique (h : t.HasSort known s) (h' : t.HasSort known s') : s = s' := by
  have heq := h.sort_eq.symm.trans h'.sort_eq
  exact Except.ok.inj heq

theorem hasSort_conj : (conj ts).HasSort known .bool ↔ ∀ t ∈ ts, t.HasSort known .bool := by
  unfold conj
  split
  · simp
  · constructor
    · intro h
      cases h with
      | and h => exact h
    · exact .and

theorem hasSort_eq_const {name : String} :
    (eq (.const name s) t).HasSort known .bool ↔ t.HasSort known s := by
  constructor
  · intro h
    cases h with
    | eq ha hb =>
      have hs := ha.unique (.const name s)
      exact hs ▸ hb
  · exact fun h => .eq (.const name s) h

theorem hasSort_disj (h : ∀ t ∈ ts, t.HasSort known .bool) : (disj ts).HasSort known .bool := by
  unfold disj
  split
  · exact h _ (by simp)
  · exact .or h

theorem hasSort_chain {link : Term → Term → Term}
    (h : ∀ x ∈ ts, ∀ y ∈ ts, (link x y).HasSort known .bool) : (chain link ts).HasSort known .bool := by
  refine hasSort_conj.2 fun t ht => ?_
  obtain ⟨x, hx, y, hy, rfl⟩ := exists_link ht
  exact h x hx y hy

theorem hasSort_foldl_bvAdd {w : Nat} (ht : t.HasSort known (.bitVec w))
    (hts : ∀ u ∈ ts, u.HasSort known (.bitVec w)) : (ts.foldl .bvAdd t).HasSort known (.bitVec w) := by
  induction ts generalizing t with
  | nil => exact ht
  | cons u ts ih =>
    rw [List.forall_mem_cons] at hts
    exact ih (.bvAdd ht hts.1) hts.2

theorem hasSort_ofInt {w : Nat} (hw : 0 < w) (hle : w ≤ 64) (i : Int) :
    (ofInt i w).HasSort known (.bitVec w) := by
  refine .bitVec hw ?_
  rw [Word.lowBits_ofInt hle, Word.lowBits_setWidth hle]

end Term

end Symex.Smt
