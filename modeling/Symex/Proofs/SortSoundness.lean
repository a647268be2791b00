import Mathlib.Data.List.Forall2
import Symex.Proofs.SortPreservation

/-!
Well-sorted terms have values. If a model gives values of the right sorts to the constants of a term, and
to its functions at all arguments of the right sorts, then evaluation of the term fails nowhere, and the
value is of the sort of the term. What a function is at arguments of other sorts does not matter, since
no operand ever has another sort than it should.
-/

namespace Symex

open Smt (Term TermSort Word Value Model)

/-! ### Results that are there -/

/-- A computation that has a result, and of some kind. -/
def Delivers {ε α : Type} (x : Except ε α) (P : α → Prop) : Prop := ∃ a, x = .ok a ∧ P a

namespace Delivers

variable {ε α β : Type} {x : Except ε α} {f : α → Except ε β} {P : α → Prop} {Q : β → Prop}

theorem ok {a : α} (h : P a) : Delivers (.ok a : Except ε α) P := ⟨a, rfl, h⟩

theorem bind (hx : Delivers x P) (hf : ∀ a, P a → Delivers (f a) Q) : Delivers (x >>= f) Q := by
  obtain ⟨a, rfl, ha⟩ := hx
  exact hf a ha

end Delivers

namespace Smt

/-! ### Values that operators ask for -/

theorem Value.HasSort.sort_eq {v : Value} {s : TermSort} (h : v.HasSort s) : v.sort = s := by
  induction h with
  | bool b => rfl
  | int i => rfl
  | bitVec h => rfl
  | array hd hkeys hes ihd ihes => rw [Value.sort, ihd]

namespace Value.Kept

variable {m : Model} {v : Value} {s i : TermSort} {w : Nat}

theorem asBool (h : Kept m v .bool) : Delivers v.asBool fun _ => True := by
  cases h.hasSort with
  | bool b => exact .ok trivial

theorem asInt (h : Kept m v .int) : Delivers v.asInt fun _ => True := by
  cases h.hasSort with
  | int i => exact .ok trivial

theorem asBitVec (h : Kept m v (.bitVec w)) :
    Delivers v.asBitVec fun p => p.2 = w ∧ HasSort (.bitVec p.1 w) (.bitVec w) := by
  cases h.hasSort with
  | bitVec hv => exact .ok ⟨rfl, .bitVec hv⟩

/-- Only arrays that are indexed by words are values. -/
theorem asArray (h : Kept m v (.array i s)) :
    Delivers v.asArray fun p => i = .bitVec TermSort.indexWidth ∧ Kept m (.array p.1 p.2) (.array i s) := by
  have hs := h.hasSort
  cases hs with
  | array hd hkeys hes => exact .ok ⟨rfl, h⟩

end Value.Kept

/-! ### Models that supply a term -/

/-- A constant array is indexed by words of the index width. Other terms are made from arrays that are. -/
def Term.IndexedAt : Term → Prop
  | .constArray s _ => ∃ element, s = .arrayOf element
  | _ => True

/-- All arrays in a term are indexed by words of the index width. -/
def Term.WordIndexed (t : Term) : Prop := ∀ u, Occurs u t → u.IndexedAt

namespace Model

/-- The symbol of a term has values: a constant has one of its sort, and a function has one at all
arguments of the sorts that it is known with. -/
def SuppliesAt (known : String → List TermSort → TermSort → Prop) (m : Model) : Term → Prop
  | .const name s => ∃ v, m.get? name = some v ∧ v.HasSort s
  | .apply f _ s => ∀ ss vs, known f ss s → List.Forall₂ Value.HasSort vs ss →
      ∃ v, m.applyFunc f vs = .ok v ∧ v.HasSort s
  | _ => True

/-- A model supplies a term if it does so wherever a term occurs in it. -/
def Supplies (known : String → List TermSort → TermSort → Prop) (m : Model) (t : Term) : Prop :=
  ∀ u, Term.Occurs u t → m.SuppliesAt known u

/-! ### Lists of operands -/

section
variable {m : Model} {ts : List Term}

theorem evalBools_delivers (h : ∀ t ∈ ts, Delivers (m.eval t) (·.Kept m .bool)) :
    Delivers (m.evalBools ts) fun _ => True := by
  induction ts with
  | nil => exact .ok trivial
  | cons t ts ih =>
    rw [List.forall_mem_cons] at h
    rw [evalBools]
    exact h.1.bind fun v hv => hv.asBool.bind fun b _ => (ih h.2).bind fun bs _ => .ok trivial

theorem evalInts_delivers (h : ∀ t ∈ ts, Delivers (m.eval t) (·.Kept m .int)) :
    Delivers (m.evalInts ts) fun _ => True := by
  induction ts with
  | nil => exact .ok trivial
  | cons t ts ih =>
    rw [List.forall_mem_cons] at h
    rw [evalInts]
    exact h.1.bind fun v hv => hv.asInt.bind fun i _ => (ih h.2).bind fun is _ => .ok trivial

/-- Arguments have values of the sorts that are asked for. -/
theorem evalAll_delivers {ss : List TermSort} (hlen : ts.length = ss.length)
    (h : ∀ p ∈ ts.zip ss, Delivers (m.eval p.1) (·.Kept m p.2)) :
    Delivers (m.evalAll ts) fun vs => List.Forall₂ Value.HasSort vs ss := by
  induction ts generalizing ss with
  | nil =>
    obtain rfl := List.length_eq_zero_iff.1 hlen.symm
    exact .ok .nil
  | cons t ts ih =>
    cases ss with
    | nil => cases hlen
    | cons s ss =>
      rw [List.zip_cons_cons, List.forall_mem_cons] at h
      rw [evalAll]
      refine h.1.bind fun v hv => (ih (Nat.succ.inj hlen) h.2).bind fun vs hvs => ?_
      exact .ok (.cons hv.hasSort hvs)

end

end Model

/-! ### Evaluation succeeds -/

namespace Term

variable {known : String → List TermSort → TermSort → Prop} {m : Model} {t : Term} {s : TermSort}

theorem HasSort.delivers_kept (h : t.HasSort known s)
    (hm : ∀ u, Occurs u t → m.SuppliesAt known u ∧ u.IndexedAt) :
    Delivers (m.eval t) fun v => v.Kept m s := by
  have operand : ∀ {t v : Term}, (∀ u, Occurs u t → m.SuppliesAt known u ∧ u.IndexedAt) →
      v ∈ t.operands → ∀ u, Occurs u v → m.SuppliesAt known u ∧ u.IndexedAt :=
    fun hm hv u hu => hm u (.operand hv hu)
  -- along the sorts: every operand has a value, which is of the kind that its operator asks for
  induction h with
  | bool b => exact .ok (.bool b)
  | int i => exact .ok (.int i)
  | bitVec hw hv => exact .ok ⟨.bitVec hv, fun _ => .bitVec _ _⟩
  | const name s =>
    obtain ⟨v, hv, hs⟩ := (hm _ .self).1
    rw [Model.eval, hv]
    exact .ok ⟨hs, fun ho => ho.const name v hv⟩
  | apply hf hlen _ ih =>
    rw [Model.eval]
    have hargs := Model.evalAll_delivers hlen fun p hp =>
      ih p hp (operand hm (List.of_mem_zip hp).1)
    refine hargs.bind fun vs hvs => ?_
    obtain ⟨v, hv, hs⟩ := (hm _ .self).1 _ vs hf hvs
    exact ⟨v, hv, hs, fun ho => ho.func _ vs v hv⟩
  | not _ ih =>
    rw [Model.eval]
    exact (ih (operand hm (by simp [operands]))).bind fun v hv => hv.asBool.bind fun b _ => .ok (.bool _)
  | and _ ih =>
    rw [Model.eval]
    refine (Model.evalBools_delivers fun t ht => ?_).bind fun bs _ => .ok (.bool _)
    exact ih t ht (operand hm ht)
  | or _ ih =>
    rw [Model.eval]
    refine (Model.evalBools_delivers fun t ht => ?_).bind fun bs _ => .ok (.bool _)
    exact ih t ht (operand hm ht)
  | implies _ _ iha ihb =>
    rw [Model.eval]
    refine (iha (operand hm (by simp [operands]))).bind fun v hv => hv.asBool.bind fun premise _ => ?_
    cases premise with
    | false => exact .ok (.bool _)
    | true =>
      refine (ihb (operand hm (by simp [operands]))).bind fun v hv => hv.asBool.bind fun b _ => ?_
      exact .ok (.bool _)
  | eq _ _ iha ihb =>
    rw [Model.eval]
    refine (iha (operand hm (by simp [operands]))).bind fun x _ => ?_
    exact (ihb (operand hm (by simp [operands]))).bind fun y _ => .ok (.bool _)
  | @distinct ts s _ ih =>
    rw [Model.eval]
    have hlen : ts.length = (List.replicate ts.length s).length := by simp
    refine (Model.evalAll_delivers hlen fun p hp => ?_).bind fun vs _ => .ok (.bool _)
    obtain ⟨ht, hs⟩ := List.of_mem_zip hp
    rw [List.eq_of_mem_replicate hs]
    exact ih p.1 ht (operand hm ht)
  | ite _ _ _ ihc iht ihe =>
    rw [Model.eval]
    refine (ihc (operand hm (by simp [operands]))).bind fun v hv => hv.asBool.bind fun choice _ => ?_
    cases choice with
    | true => exact iht (operand hm (by simp [operands]))
    | false => exact ihe (operand hm (by simp [operands]))
  | lt _ _ iha ihb | gt _ _ iha ihb =>
    rw [Model.eval]
    refine (iha (operand hm (by simp [operands]))).bind fun v hv => hv.asInt.bind fun x _ => ?_
    refine (ihb (operand hm (by simp [operands]))).bind fun v hv => hv.asInt.bind fun y _ => ?_
    exact .ok (.bool _)
  | add _ ih =>
    rw [Model.eval]
    refine (Model.evalInts_delivers fun t ht => ?_).bind fun is _ => .ok (.int _)
    exact ih t ht (operand hm ht)
  | bvAdd _ _ iha ihb =>
    rw [Model.eval]
    refine (iha (operand hm (by simp [operands]))).bind fun v hv => hv.asBitVec.bind ?_
    rintro ⟨x, w⟩ ⟨rfl, -⟩
    refine (ihb (operand hm (by simp [operands]))).bind fun v hv => hv.asBitVec.bind fun y _ => ?_
    exact .ok (.lowBits _ _)
  | bvNot _ ih | signExtend _ _ ih =>
    rw [Model.eval]
    refine (ih (operand hm (by simp [operands]))).bind fun v hv => hv.asBitVec.bind ?_
    rintro ⟨x, w⟩ ⟨rfl, -⟩
    exact .ok (.lowBits _ _)
  | bvSlt _ _ iha ihb =>
    rw [Model.eval]
    refine (iha (operand hm (by simp [operands]))).bind fun v hv => hv.asBitVec.bind fun x _ => ?_
    refine (ihb (operand hm (by simp [operands]))).bind fun v hv => hv.asBitVec.bind fun y _ => ?_
    exact .ok (.bool _)
  | select _ _ iha ihi =>
    rw [Model.eval]
    refine (iha (operand hm (by simp [operands]))).bind fun v hv => hv.asArray.bind ?_
    rintro ⟨d, es⟩ ⟨rfl, ha⟩
    refine (ihi (operand hm (by simp [operands]))).bind fun v hv => hv.asBitVec.bind fun k _ => ?_
    exact .ok (ha.element k.1)
  | store _ _ _ iha ihi ihv =>
    rw [Model.eval]
    refine (iha (operand hm (by simp [operands]))).bind fun v hv => hv.asArray.bind ?_
    rintro ⟨d, es⟩ ⟨rfl, ha⟩
    refine (ihi (operand hm (by simp [operands]))).bind fun v hv => hv.asBitVec.bind ?_
    rintro ⟨k, w⟩ ⟨-, hk⟩
    exact (ihv (operand hm (by simp [operands]))).bind fun v hv => .ok (ha.store hk hv)
  | constArray k _ ih =>
    obtain ⟨element, hs⟩ := (hm _ .self).2
    cases hs
    rw [Model.eval]
    exact (ih (operand hm (by simp [operands]))).bind fun v hv => .ok hv.constArray

/-- **Well-sorted terms have values of their sort**, in every model that supplies their symbols: evaluation
does not fail, words of the value fit their widths and arrays have elements of one sort, listed by ascending
keys if those of the model are, and the sort of the value is the sort that is read off the term. -/
theorem HasSort.eval_succeeds (h : t.HasSort known s) (hi : t.WordIndexed) (hm : m.Supplies known t) :
    ∃ v, m.eval t = .ok v ∧ v.HasSort s ∧ (m.Ordered → v.Ordered) ∧ t.sort = .ok v.sort := by
  obtain ⟨v, hv, hkept⟩ := h.delivers_kept fun u hu => ⟨hm u hu, hi u hu⟩
  refine ⟨v, hv, hkept.hasSort, hkept.ordered, ?_⟩
  rw [h.sort_eq, hkept.hasSort.sort_eq]

end Term

/-! ### A byte stored at an index and found by a function -/

namespace Term

/-- A byte. -/
def aByte : Term := .const "b" (.bitVec 8)

/-- Bytes that are all zero. -/
def noBytes : Term := .constArray (.arrayOf (.bitVec 8)) (.bitVec 0 8)

/-- The byte, negated, is stored at the index that it denotes. -/
def byteStored : Term := .store noBytes (.signExtend 24 aByte) (.bvNot aByte)

/-- A function of words of the full width finds the index. -/
def byteIndex : Term := .apply "find" [.signExtend 56 aByte] (.bitVec 32)

/-- The signature of the function. -/
def FindsWords (f : String) (args : List TermSort) (s : TermSort) : Prop :=
  f = "find" ∧ args = [.bitVec 64] ∧ s = .bitVec 32

/-- The smallest byte, and the index that it denotes. -/
def byteModel : Model where
  consts := [("b", .bitVec 128 8)]
  funcs := [("find", .ofDefault (.bitVec 4294967168 32))]

theorem byte_hasSort : (select byteStored byteIndex).HasSort FindsWords (.bitVec 8) := by
  have hb : aByte.HasSort FindsWords (.bitVec 8) := .const "b" _
  have hzero : HasSort FindsWords (.bitVec 0 8) (.bitVec 8) := .bitVec (by decide) (by decide)
  have hfind : FindsWords "find" [.bitVec 64] (.bitVec 32) := ⟨rfl, rfl, rfl⟩
  have hindex : byteIndex.HasSort FindsWords (.bitVec 32) :=
    .apply hfind rfl (by simpa using hb.signExtend 56)
  exact .select (.store (.constArray _ hzero) (hb.signExtend 24) (.bvNot hb)) hindex

theorem byte_supplied : ∀ u, Occurs u (select byteStored byteIndex) →
    byteModel.SuppliesAt FindsWords u ∧ u.IndexedAt := by
  have hb : ∀ u, Occurs u aByte → byteModel.SuppliesAt FindsWords u ∧ u.IndexedAt :=
    forall_occurs_iff.2 ⟨⟨⟨.bitVec 128 8, by decide, .bitVec (by decide)⟩, trivial⟩, by simp [aByte, operands]⟩
  have hext : ∀ n u, Occurs u (signExtend n aByte) → byteModel.SuppliesAt FindsWords u ∧ u.IndexedAt :=
    fun n => forall_occurs_iff.2 ⟨⟨trivial, trivial⟩, by simpa [operands] using hb⟩
  have hnot : ∀ u, Occurs u (bvNot aByte) → byteModel.SuppliesAt FindsWords u ∧ u.IndexedAt :=
    forall_occurs_iff.2 ⟨⟨trivial, trivial⟩, by simpa [operands] using hb⟩
  have hzero : ∀ u, Occurs u (bitVec 0 8) → byteModel.SuppliesAt FindsWords u ∧ u.IndexedAt :=
    forall_occurs_iff.2 ⟨⟨trivial, trivial⟩, by simp [operands]⟩
  have hblank : ∀ u, Occurs u noBytes → byteModel.SuppliesAt FindsWords u ∧ u.IndexedAt :=
    forall_occurs_iff.2 ⟨⟨trivial, .bitVec 8, rfl⟩, by simpa [noBytes, operands] using hzero⟩
  have hstored : ∀ u, Occurs u byteStored → byteModel.SuppliesAt FindsWords u ∧ u.IndexedAt :=
    forall_occurs_iff.2 ⟨⟨trivial, trivial⟩, by simpa [byteStored, operands] using ⟨hblank, hext 24, hnot⟩⟩
  have hindex : ∀ u, Occurs u byteIndex → byteModel.SuppliesAt FindsWords u ∧ u.IndexedAt := by
    refine forall_occurs_iff.2 ⟨⟨fun ss vs _ _ => ?_, trivial⟩, by simpa [byteIndex, operands] using hext 56⟩
    exact ⟨.bitVec 4294967168 32, rfl, .bitVec (by decide)⟩
  exact forall_occurs_iff.2 ⟨⟨trivial, trivial⟩, by simpa [operands] using ⟨hstored, hindex⟩⟩

/-- The byte is found, negated. -/
theorem byte_succeeds :
    (select byteStored byteIndex).HasSort FindsWords (.bitVec 8) ∧
      byteModel.eval (select byteStored byteIndex) = .ok (.bitVec 127 8) ∧
      (Value.bitVec 127 8).HasSort (.bitVec 8) := by
  obtain ⟨v, hv, hs, -, -⟩ := byte_hasSort.eval_succeeds (fun u hu => (byte_supplied u hu).2) fun u hu =>
    (byte_supplied u hu).1
  have heval : byteModel.eval (select byteStored byteIndex) = .ok (.bitVec 127 8) := rfl
  obtain rfl := Except.ok.inj (hv.symm.trans heval)
  exact ⟨byte_hasSort, heval, hs⟩

end Term

end Smt

end Symex
