import Symex.Proofs.SortPreservation

/-!
Equality of arrays. An array is a default with the elements stored at some keys, and one array can be laid
out in many ways: storing the default again changes the layout and no element. Equality compares layouts.
Arrays that are equal have the same elements; arrays that have the same elements are equal if their layouts
are, and so if no array stores its default and some index is stored in none.
-/

namespace Symex.Smt

/-! ### Layouts -/

namespace Value

/-- The element of an array that is stored nowhere. -/
def background : Value → Value
  | .array d _ => d
  | v => v

/-- The keys at which an array stores elements. -/
def stored : Value → List Word
  | .array _ es => es.map Prod.fst
  | _ => []

/-- The elements that an array stores. -/
def elements : Value → List Value
  | .array _ es => es.map Prod.snd
  | _ => []

/-- Arrays with one default that store elements at the same keys. -/
structure SameLayout (x y : Value) : Prop where
  background : x.background = y.background
  stored : x.stored = y.stored

/-- The default is not stored anywhere. -/
def Reduced (x : Value) : Prop := x.background ∉ x.elements

/-- Some index is stored in neither array. -/
def ShareGap (x y : Value) : Prop :=
  ∃ i : BitVec TermSort.indexWidth, i.setWidth 64 ∉ x.stored ∧ i.setWidth 64 ∉ y.stored

end Value

/-- Entries of an array: keys ascend and are of the index width. -/
structure Entries (es : Table Word Value) : Prop where
  ascending : es.Ascending
  narrow : ∀ e ∈ es, e.1.lowBits TermSort.indexWidth = e.1

/-- Lookups in arrays have the same results. -/
def SameLookups (d d' : Value) (es es' : Table Word Value) : Prop :=
  ∀ i : BitVec TermSort.indexWidth, (es.find? (i.setWidth 64)).getD d = (es'.find? (i.setWidth 64)).getD d'

namespace Entries

variable {es es' : Table Word Value} {d d' : Value}

theorem find?_eq_none (h : Entries es) {k : Word} (hk : k.lowBits TermSort.indexWidth ≠ k) :
    es.find? k = none := by
  cases hf : es.find? k with
  | none => rfl
  | some v => exact absurd (h.narrow _ (Table.mem_of_find? hf)) hk

/-- Arrays with the same elements that store them at the same keys have the same entries. -/
theorem eq_of_lookups (h : Entries es) (h' : Entries es') (hsame : SameLookups d d' es es')
    (hstored : ∀ i : BitVec TermSort.indexWidth,
      (es.find? (i.setWidth 64)).isSome = (es'.find? (i.setWidth 64)).isSome) : es = es' := by
  refine h.ascending.ext h'.ascending fun k => ?_
  by_cases hk : k.lowBits TermSort.indexWidth = k
  · have hel := hsame (k.setWidth TermSort.indexWidth)
    have hsome := hstored (k.setWidth TermSort.indexWidth)
    rw [show (k.setWidth TermSort.indexWidth).setWidth 64 = k from hk] at hel hsome
    cases hf : es.find? k with
    | none =>
      rw [hf] at hsome
      exact (Option.isNone_iff_eq_none.1 (by simpa using hsome.symm)).symm
    | some v =>
      rw [hf] at hsome hel
      obtain ⟨v', hf'⟩ := Option.isSome_iff_exists.1 hsome.symm
      rw [hf'] at hel ⊢
      exact congrArg some hel
  · rw [h.find?_eq_none hk, h'.find?_eq_none hk]

/-- An element other than the default that an array has is stored in it. -/
theorem isSome_of_lookup {k : Word} (hred : d ∉ es.map Prod.snd)
    (hel : (es.find? k).getD d = (es'.find? k).getD d) (hsome : (es.find? k).isSome) :
    (es'.find? k).isSome := by
  obtain ⟨v, hv⟩ := Option.isSome_iff_exists.1 hsome
  cases hf : es'.find? k with
  | some v' => rfl
  | none =>
    rw [hv, hf] at hel
    have hd : v = d := hel
    exact absurd (List.mem_map.2 ⟨_, Table.mem_of_find? hv, hd⟩) hred

/-- Arrays are equal just in case they have the same elements in the same layout. -/
theorem array_eq_iff (h : Entries es) (h' : Entries es') : Value.array d es = .array d' es' ↔
    SameLookups d d' es es' ∧ (Value.array d es).SameLayout (.array d' es') := by
  constructor
  · intro heq
    cases heq
    exact ⟨fun _ => rfl, rfl, rfl⟩
  · rintro ⟨hsame, hd, hkeys⟩
    obtain rfl : d = d' := hd
    have hkeys : es.map Prod.fst = es'.map Prod.fst := hkeys
    have hes : es = es' := h.eq_of_lookups h' hsame fun i => by
      rw [Bool.eq_iff_iff, Table.isSome_find?_iff, Table.isSome_find?_iff, hkeys]
    rw [hes]

/-- Arrays that do not store their defaults, and both leave some index out, have a layout that their
elements decide. -/
theorem sameLayout (h : Entries es) (h' : Entries es') (hsame : SameLookups d d' es es')
    (hred : (Value.array d es).Reduced) (hred' : (Value.array d' es').Reduced)
    (hgap : (Value.array d es).ShareGap (.array d' es')) :
    (Value.array d es).SameLayout (.array d' es') := by
  obtain ⟨gap, hg, hg'⟩ := hgap
  -- where neither stores an element, the elements are the defaults
  have hd : d = d' := by
    have hlookup := hsame gap
    rwa [Table.find?_eq_none_iff.2 hg, Table.find?_eq_none_iff.2 hg'] at hlookup
  subst hd
  have hes : es = es' := h.eq_of_lookups h' hsame fun i =>
    Bool.eq_iff_iff.2 ⟨isSome_of_lookup hred (hsame i), isSome_of_lookup hred' (hsame i).symm⟩
  rw [hes]
  exact ⟨rfl, rfl⟩

end Entries

/-! ### Equality of array terms -/

/-- The literal of an index. -/
def Term.ofIndex (i : BitVec TermSort.indexWidth) : Term := .bitVec (i.setWidth 64) TermSort.indexWidth

namespace Model

variable {known : String → List TermSort → TermSort → Prop} {m : Model} {a b : Term} {s : TermSort}
  {d d' x y : Value} {es es' : Table Word Value}

/-- At every index, two arrays have elements, and they are the same. -/
def SameElements (m : Model) (a b : Term) : Prop :=
  ∀ i, ∃ v, m.eval (.select a (.ofIndex i)) = .ok v ∧ m.eval (.select b (.ofIndex i)) = .ok v

theorem eval_select_ofIndex (ha : m.eval a = .ok (.array d es)) (i : BitVec TermSort.indexWidth) :
    m.eval (.select a (.ofIndex i)) = .ok ((es.find? (i.setWidth 64)).getD d) := by
  rw [eval]
  exact bind_eq_ok.2 ⟨_, ha, bind_eq_ok.2 ⟨(d, es), rfl, rfl⟩⟩

theorem sameElements_iff (ha : m.eval a = .ok (.array d es)) (hb : m.eval b = .ok (.array d' es')) :
    m.SameElements a b ↔ SameLookups d d' es es' := by
  refine forall_congr' fun i => ?_
  rw [eval_select_ofIndex ha, eval_select_ofIndex hb]
  simp [eq_comm]

theorem eval_distinct_pair (ha : m.eval a = .ok x) (hb : m.eval b = .ok y) :
    m.eval (.distinct [a, b]) = .ok (.bool !decide (x = y)) := by
  have hab : m.evalAll [a, b] = .ok [x, y] := by
    rw [evalAll, evalAll, ha, hb]
    rfl
  have hpair : pairwiseDistinct [x, y] = !decide (x = y) := by simp [pairwiseDistinct, eq_comm]
  rw [eval, hab, ← hpair]
  rfl

/-- A well-sorted array term evaluates to an array with proper entries. -/
theorem exists_entries (h : a.HasSort known (.arrayOf s)) (hm : m.Fits a) (ho : m.Ordered)
    (ha : m.eval a = .ok x) : ∃ d es, x = .array d es ∧ Entries es := by
  have hordered := h.eval_ordered hm ho ha
  cases h.eval_hasSort hm ha with
  | @array d es _ hd hkeys hes =>
    cases hordered with
    | array _ hasc _ => exact ⟨d, es, rfl, hasc, hkeys⟩

/-- **Array terms are equal just in case they have the same elements in the same layout**, and distinct
just in case they are not equal. Having the same elements is enough for arrays that do not store their
defaults, if some index is stored in neither. -/
theorem eval_eq_arrays (ha : a.HasSort known (.arrayOf s)) (hb : b.HasSort known (.arrayOf s))
    (hma : m.Fits a) (hmb : m.Fits b) (ho : m.Ordered) (hx : m.eval a = .ok x) (hy : m.eval b = .ok y) :
    ∃ q, m.eval (.eq a b) = .ok (.bool q) ∧ m.eval (.distinct [a, b]) = .ok (.bool !q) ∧
      (q = true ↔ m.SameElements a b ∧ x.SameLayout y) ∧
      (x.Reduced → y.Reduced → x.ShareGap y → (q = true ↔ m.SameElements a b)) := by
  obtain ⟨d, es, rfl, hes⟩ := exists_entries ha hma ho hx
  obtain ⟨d', es', rfl, hes'⟩ := exists_entries hb hmb ho hy
  refine ⟨_, eval_eq hx hy, eval_distinct_pair hx hy, ?_, fun hred hred' hgap => ?_⟩
  · rw [decide_eq_true_iff, sameElements_iff hx hy, hes.array_eq_iff hes']
  · rw [decide_eq_true_iff, sameElements_iff hx hy, hes.array_eq_iff hes']
    exact and_iff_left_of_imp fun hsame => hes.sameLayout hes' hsame hred hred' hgap

/-! ### Bytes stored in two orders, and a default that is stored -/

/-- Arrays of bytes. -/
def bytes : TermSort := .arrayOf (.bitVec 8)

/-- A byte stored in an array. -/
def storeByte (a : Term) (i : BitVec TermSort.indexWidth) (v : BitVec 8) : Term :=
  .store a (.ofIndex i) (.bitVec (v.setWidth 64) 8)

theorem storeByte_hasSort (h : a.HasSort known bytes) (i : BitVec TermSort.indexWidth) (v : BitVec 8) :
    (storeByte a i v).HasSort known bytes :=
  .store h (.bitVec (by decide) (Word.lowBits_setWidth (by decide) i))
    (.bitVec (by decide) (Word.lowBits_setWidth (by decide) v))

theorem storeByte_fits (h : m.Fits a) (i : BitVec TermSort.indexWidth) (v : BitVec 8) :
    m.Fits (storeByte a i v) := by
  have hword : ∀ v w, m.Fits (.bitVec v w) := fun v w => fits_iff.2 ⟨trivial, by simp [Term.operands]⟩
  refine fits_iff.2 ⟨trivial, ?_⟩
  simp [storeByte, Term.ofIndex, Term.operands, h, hword]

/-- A model of one array of bytes, which has one element that is not zero. -/
def bytesModel : Model := { consts := [("mem", .array (.bitVec 0 8) [(2, .bitVec 7 8)])] }

theorem get?_bytesModel {name : String} {v : Value} (h : bytesModel.get? name = some v) :
    v = .array (.bitVec 0 8) [(2, .bitVec 7 8)] := by
  obtain ⟨e, he, rfl⟩ := Table.exists_of_find? h
  rw [List.mem_singleton.1 he]

theorem bytesModel_ordered : bytesModel.Ordered where
  const name v hv := by
    rw [get?_bytesModel hv]
    exact .array (.bitVec _ _) (List.pairwise_singleton _ _) (by simpa using .bitVec 7 8)
  func f vs v hv := by cases hv

theorem bytesModel_fits : bytesModel.Fits (.const "mem" bytes) := by
  refine fits_iff.2 ⟨fun v hv => ?_, by simp [Term.operands]⟩
  rw [get?_bytesModel hv]
  exact .array (.bitVec (by decide)) (by decide) (by simpa using .bitVec (by decide))

def storedOnce : Term := storeByte (storeByte (.const "mem" bytes) 1 5) 4 9

def storedAgain : Term := storeByte (storeByte (storeByte (.const "mem" bytes) 4 9) 1 3) 1 5

/-- What both evaluate to. -/
def storedBytes : Value := .array (.bitVec 0 8) [(1, .bitVec 5 8), (2, .bitVec 7 8), (4, .bitVec 9 8)]

/-- The order of stores, and a store that is overwritten, make no difference. -/
theorem storedAgain_equal :
    (storedBytes.Reduced ∧ storedBytes.ShareGap storedBytes) ∧
      bytesModel.eval storedOnce = .ok storedBytes ∧ bytesModel.eval storedAgain = .ok storedBytes ∧
      bytesModel.Holds (.eq storedOnce storedAgain) ∧ bytesModel.SameElements storedOnce storedAgain := by
  have hred : storedBytes.Reduced := by
    unfold Value.Reduced
    decide
  have hgap : storedBytes.ShareGap storedBytes := ⟨0, by decide⟩
  have hmem : Term.HasSort (fun _ _ _ => False) (.const "mem" bytes) bytes := .const "mem" bytes
  obtain ⟨q, heq, -, -, hiff⟩ := eval_eq_arrays (x := storedBytes) (y := storedBytes)
    (storeByte_hasSort (storeByte_hasSort hmem 1 5) 4 9)
    (storeByte_hasSort (storeByte_hasSort (storeByte_hasSort hmem 4 9) 1 3) 1 5)
    (storeByte_fits (storeByte_fits bytesModel_fits 1 5) 4 9)
    (storeByte_fits (storeByte_fits (storeByte_fits bytesModel_fits 4 9) 1 3) 1 5)
    bytesModel_ordered rfl rfl
  have heval : bytesModel.Holds (.eq storedOnce storedAgain) := rfl
  have hq : q = true := by simpa using heq.symm.trans heval
  exact ⟨⟨hred, hgap⟩, rfl, rfl, heval, (hiff hred hred hgap).1 hq⟩

/-- An array of zeros. -/
def blankBytes : Term := .constArray bytes (.bitVec 0 8)

/-- **A default that is stored makes a difference**: all elements are still zero, and equality is false. -/
theorem storedDefault_unequal :
    blankBytes.HasSort (fun _ _ _ => False) bytes ∧
      (storeByte blankBytes 1 0).HasSort (fun _ _ _ => False) bytes ∧
      SameElements {} (storeByte blankBytes 1 0) blankBytes ∧
      eval {} (.eq (storeByte blankBytes 1 0) blankBytes) = .ok (.bool false) ∧
      eval {} (.distinct [storeByte blankBytes 1 0, blankBytes]) = .ok (.bool true) := by
  have hblank : blankBytes.HasSort (fun _ _ _ => False) bytes :=
    .constArray _ (.bitVec (by decide) (by decide))
  have hzeros : eval {} blankBytes = .ok (.array (.bitVec 0 8) []) := rfl
  have hstored : eval {} (storeByte blankBytes 1 0) = .ok (.array (.bitVec 0 8) [(1, .bitVec 0 8)]) := rfl
  refine ⟨hblank, storeByte_hasSort hblank 1 0, ?_, rfl, rfl⟩
  refine (sameElements_iff hstored hzeros).2 fun i => ?_
  exact Table.forall_getD (P := (· = Value.bitVec 0 8)) rfl (by simp) _

end Model

end Symex.Smt
