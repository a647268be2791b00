import Mathlib.Data.List.Forall2
import Symex.Proofs.Support

/-!
Free variables and declarations. Encoding meets the free variables of an expression from left to right and
notes each with its sort, so what is declared afterwards are the variables of all expressions, by name, and
of a name with two types the last occurrence counts. The symbols in a term are the free variables of its
expression and no others, so its value depends on these only.
-/

namespace Symex

open Smt (Term TermSort Declaration Model)

/-! ### The last entry of a key -/

namespace Table

variable {κ ν : Type} {l : List (κ × ν)} {k : κ} {v : ν}

/-- Of the entries with a key, the last one has a value. -/
def IsLast (l : List (κ × ν)) (k : κ) (v : ν) : Prop :=
  ∃ before after, l = before ++ (k, v) :: after ∧ ∀ e ∈ after, e.1 ≠ k

theorem isLast_cons {e : κ × ν} : IsLast (e :: l) k v ↔ IsLast l k v ∨ (∀ f ∈ l, f.1 ≠ k) ∧ e = (k, v) := by
  constructor
  · rintro ⟨before, after, heq, hafter⟩
    cases before with
    | nil =>
      cases heq
      exact .inr ⟨hafter, rfl⟩
    | cons f before =>
      cases heq
      exact .inl ⟨before, after, rfl, hafter⟩
  · rintro (⟨before, after, rfl, hafter⟩ | ⟨hl, rfl⟩)
    · exact ⟨e :: before, after, rfl, hafter⟩
    · exact ⟨[], l, rfl, hl⟩

theorem IsLast.mem (h : IsLast l k v) : (k, v) ∈ l := by
  obtain ⟨before, after, rfl, -⟩ := h
  simp

/-- A key that is there has a last entry. -/
theorem exists_isLast_iff : (∃ v, IsLast l k v) ↔ ∃ v, (k, v) ∈ l := by
  induction l with
  | nil => simp [IsLast]
  | cons e l ih =>
    have hkeys : (∀ f ∈ l, f.1 ≠ k) ↔ ¬∃ v, (k, v) ∈ l := by
      constructor
      · rintro h ⟨v, hv⟩
        exact h _ hv rfl
      · rintro h ⟨_, w⟩ hf rfl
        exact h ⟨w, hf⟩
    simp only [isLast_cons, exists_or, ih, hkeys, List.mem_cons, exists_and_left, eq_comm (b := e)]
    rw [or_comm]
    by_cases h : ∃ v, (k, v) ∈ l
    · simp [h]
    · simp [h]

theorem isLast_map {μ : Type} {f : ν → μ} {w : μ} :
    IsLast (l.map fun e => (e.1, f e.2)) k w ↔ ∃ v, IsLast l k v ∧ f v = w := by
  induction l with
  | nil => simp [IsLast]
  | cons e l ih =>
    rw [List.map_cons, isLast_cons, ih, List.forall_mem_map]
    simp only [isLast_cons, or_and_right, exists_or]
    refine or_congr_right ?_
    constructor
    · rintro ⟨hl, heq⟩
      cases heq
      exact ⟨e.2, ⟨hl, rfl⟩, rfl⟩
    · rintro ⟨v, ⟨hl, rfl⟩, rfl⟩
      exact ⟨hl, rfl⟩

variable [Ord κ] [Std.LawfulEqOrd κ]

theorem ne_of_compare_lt {i j : κ} (h : compare i j = .lt) : i ≠ j := by
  rintro rfl
  have hself : compare i i = .eq := Std.ReflCmp.compare_self
  rw [hself] at h
  cases h

variable [Std.TransOrd κ]

theorem find?_foldl_insert_iff {t : Table κ ν} :
    (l.foldl (fun t e => t.insert e.1 e.2) t).find? k = some v ↔
      IsLast l k v ∨ (∀ e ∈ l, e.1 ≠ k) ∧ t.find? k = some v := by
  induction l generalizing t with
  | nil => simp [IsLast]
  | cons e l ih =>
    have hins : find? k (t.insert e.1 e.2) = some v ↔ e = (k, v) ∨ e.1 ≠ k ∧ t.find? k = some v := by
      obtain ⟨j, w⟩ := e
      by_cases hj : j = k
      · subst hj
        rw [find?_insert_self]
        simp
      · rw [find?_insert_of_ne fun h => hj (Std.LawfulEqCmp.eq_of_compare h).symm]
        simp [hj]
    rw [List.foldl_cons, ih, hins, isLast_cons, List.forall_mem_cons, and_or_left, or_assoc, ← and_assoc,
      and_comm (a := e.1 ≠ k)]

/-- In a table that was filled from a list, the last entry of a key is found. -/
theorem find?_ofList_iff : (ofList l).find? k = some v ↔ IsLast l k v := by
  rw [ofList, find?_foldl_insert_iff]
  simp [find?]

theorem contains_ofList_iff : (ofList l).contains k = true ↔ ∃ v, (k, v) ∈ l := by
  rw [contains, Option.isSome_iff_exists]
  simp only [find?_ofList_iff, exists_isLast_iff]

theorem ascending_foldl_insert {t : Table κ ν} (ht : t.Ascending) (l : List (κ × ν)) :
    (l.foldl (fun t e => t.insert e.1 e.2) t).Ascending := by
  induction l generalizing t with
  | nil => exact ht
  | cons e l ih => exact ih (ht.insert e.1 e.2)

end Table

/-! ### What is noted -/

/-- The sort of a type that has one. -/
def Ty.plainSort : Ty → TermSort
  | .bool => .bool
  | .char | .short | .int => .int

theorem Ty.termSort_eq_ok {ty : Ty} {s : TermSort} (h : ty.termSort = .ok s) : s = ty.plainSort := by
  cases ty <;> cases h <;> rfl

/-- A free variable with its sort. -/
def plainVariable (v : String × Ty) : String × TermSort := (v.1, v.2.plainSort)

/-- From the variables noted before, some free variables were met, all of them with sorts and in this order,
and the symbols of the terms that were made are these variables. -/
structure Encoding.Notes (free : FreeSorts) (met : List (String × Ty)) (ts : List Term) (free' : FreeSorts) :
    Prop where
  sorted : ∀ v ∈ met, v.2.termSort = .ok v.2.plainSort
  noted : free' = (met.map plainVariable).foldl (fun t v => t.insert v.1 v.2) free
  symbols : Term.SameSymbols ts ((met.map plainVariable).map fun c => .const c.1 c.2)

namespace Encoding.Notes

variable {free mid free' : FreeSorts} {met met' : List (String × Ty)} {ts us : List Term}

theorem nil (free : FreeSorts) (h : Term.SameSymbols ts []) : Notes free [] ts free := ⟨by simp, rfl, h⟩

theorem append (h : Notes free met ts mid) (h' : Notes mid met' us free') :
    Notes free (met ++ met') (ts ++ us) free' where
  sorted := List.forall_mem_append.2 ⟨h.sorted, h'.sorted⟩
  noted := by rw [h'.noted, h.noted, List.map_append, List.foldl_append]
  symbols := by
    rw [List.map_append, List.map_append]
    exact h.symbols.append h'.symbols

/-- Terms that are put together from others have the same symbols. -/
theorem combine (h : Notes free met ts free') (hus : Term.SameSymbols us ts) : Notes free met us free' :=
  ⟨h.sorted, h.noted, hus.trans h.symbols⟩

end Encoding.Notes

theorem castTerm_symbols (ty ty' : Ty) (t : Term) : Term.SameSymbols [castTerm ty ty' t] [t] := by
  unfold castTerm
  split
  · have hite : Term.SameSymbols [.ite t (.int 1) (.int 0)] [t, .int 1, .int 0] := .operands rfl
    have hnone : Term.SameSymbols [.int 1, .int 0] [] := by
      have hone : Term.SameSymbols [.int 1] [] := .operands rfl
      have hzero : Term.SameSymbols [.int 0] [] := .operands rfl
      exact hone.cons hzero
    exact hite.trans ((Term.SameSymbols.refl [t]).cons hnone)
  · have hnot : Term.SameSymbols [.not (.eq t (.int 0))] [.eq t (.int 0)] := .operands rfl
    have heq : Term.SameSymbols [.eq t (.int 0)] [t, .int 0] := .operands rfl
    have hzero : Term.SameSymbols [.int 0] [] := .operands rfl
    exact hnot.trans (heq.trans ((Term.SameSymbols.refl [t]).cons hzero))
  · exact .refl _

/-- An operator loses no operand. -/
theorem Operator.applyTerms_symbols {op : Operator} {ts : List Term} {t : Term}
    (h : op.applyTerms ts = .ok t) : Term.SameSymbols [t] ts := by
  match ts with
  | [] => cases h
  | [u] =>
    rw [applyTerms] at h
    split at h
    · cases h
      exact .refl _
    · cases h
  | u :: v :: ts =>
    cases op with
    | not => cases h
    | add | and | or =>
      cases h
      exact .operands rfl
    | eq | lt =>
      cases h
      exact .chain (fun x y => .operands rfl) (by simp)

namespace Expr

variable {free free' : FreeSorts}

open Encoding (Notes gives_bind gives_pure gives_ofExcept)

mutual
/-- **Encoding notes the free variables from left to right**, and these are the symbols of the term. -/
theorem encode_notes (e : Expr) {free free' : FreeSorts} {t : Term} (h : e.encode.Gives free t free') :
    Notes free e.occurrences [t] free' := by
  match e with
  | .any _ name ty =>
    obtain ⟨s, mid, hs, h⟩ := gives_bind.1 h
    obtain ⟨hsort, rfl⟩ := gives_ofExcept.1 hs
    obtain rfl := Ty.termSort_eq_ok hsort
    cases h
    exact ⟨by simpa [occurrences] using hsort, rfl, .refl _⟩
  | .lit _ value _ =>
    obtain ⟨ht, rfl⟩ := gives_ofExcept.1 h
    refine .nil free ?_
    cases value with
    | bool b =>
      cases ht
      exact .operands rfl
    | int v =>
      cases ht
      exact .operands rfl
    | char v => cases ht
    | short v => cases ht
  | .cast _ ty e =>
    obtain ⟨_, _, hfrom, h⟩ := gives_bind.1 h
    obtain ⟨-, rfl⟩ := gives_ofExcept.1 hfrom
    obtain ⟨_, _, hto, h⟩ := gives_bind.1 h
    obtain ⟨-, rfl⟩ := gives_ofExcept.1 hto
    obtain ⟨u, mid, hu, h⟩ := gives_bind.1 h
    obtain ⟨rfl, rfl⟩ := gives_pure.1 h
    exact (encode_notes e hu).combine (castTerm_symbols _ _ u)
  | .unary _ op e =>
    obtain ⟨u, mid, hu, h⟩ := gives_bind.1 h
    obtain ⟨rfl, rfl⟩ := gives_pure.1 h
    exact (encode_notes e hu).combine (.operands rfl)
  | .ite _ c y n =>
    obtain ⟨tc, mid, hc, h⟩ := gives_bind.1 h
    obtain ⟨ty, mid', hy, h⟩ := gives_bind.1 h
    obtain ⟨tn, mid'', hn, h⟩ := gives_bind.1 h
    obtain ⟨rfl, rfl⟩ := gives_pure.1 h
    have hall := ((encode_notes c hc).append (encode_notes y hy)).append (encode_notes n hn)
    exact hall.combine (.operands rfl)
  | .nary _ op ty es =>
    obtain ⟨ts, hts, ht⟩ := encode_nary_gives.1 h
    exact (encodeAll_notes es hts).combine (Operator.applyTerms_symbols ht)
theorem encodeAll_notes (es : List Expr) {free free' : FreeSorts} {ts : List Term}
    (h : (encodeAll es).Gives free ts free') : Notes free (occurrencesAll es) ts free' := by
  match es with
  | [] =>
    obtain ⟨rfl, rfl⟩ := gives_pure.1 h
    exact .nil free (.refl [])
  | e :: es =>
    obtain ⟨t, us, mid, ht, hus, rfl⟩ := encodeAll_cons_gives.1 h
    exact (encode_notes e ht).append (encodeAll_notes es hus)
end

/-- One after another without a failure is all together. -/
theorem encodeAll_gives_of_each {es : List Expr} {ts : List Term}
    (h : encodeEach free es = (ts.map .ok, free')) : (encodeAll es).Gives free ts free' := by
  induction es generalizing free ts with
  | nil =>
    cases ts with
    | nil => exact gives_pure.2 ⟨rfl, (Prod.ext_iff.1 h).2⟩
    | cons t ts => cases h
  | cons e es ih =>
    cases ts with
    | nil => cases h
    | cons t ts =>
      obtain ⟨hts, hfree⟩ := Prod.ext_iff.1 h
      obtain ⟨ht, hts⟩ := List.cons.inj hts
      exact encodeAll_cons_gives.2 ⟨t, ts, _, Prod.ext ht rfl, ih (Prod.ext hts hfree), rfl⟩

end Expr

/-! ### Declarations -/

/-- A table of variables is declared as it stands. -/
theorem FreeSorts.declarations_declareIn {fs : FreeSorts} (h : fs.Ascending) {script : Smt.Script}
    (hs : ∀ v ∈ fs, script.declares v.1 = false) :
    (fs.declareIn script).declarations = script.declarations ++ fs.map fun v => .const v.1 v.2 := by
  unfold declareIn
  induction fs generalizing script with
  | nil => simp
  | cons v fs ih =>
    obtain ⟨hv, hfs⟩ := List.pairwise_cons.1 h
    rw [List.forall_mem_cons] at hs
    have hnew : script.declares (Declaration.const v.1 v.2).name = false := hs.1
    have hdeclare : script.declare (.const v.1 v.2) =
        { script with declarations := script.declarations ++ [.const v.1 v.2] } := if_neg (by simp [hnew])
    have hrest : ∀ w ∈ fs, (script.declare (.const v.1 v.2)).declares w.1 = false := by
      intro w hw
      have hne : v.1 ≠ w.1 := Table.ne_of_compare_lt (hv w hw)
      rw [Smt.Script.declares_declare, hs.2 w hw]
      simp [Declaration.name, hne]
    rw [List.foldl_cons, ih hfs hrest, hdeclare]
    simp

namespace Expr

/-- The last occurrence of a name decides the type of a free variable. -/
theorem find?_free_iff {e : Expr} {name : String} {ty : Ty} :
    e.free.find? name = some ty ↔ Table.IsLast e.occurrences name ty :=
  Table.find?_ofList_iff

theorem contains_free_iff {e : Expr} {name : String} :
    e.free.contains name = true ↔ ∃ ty, (name, ty) ∈ e.occurrences :=
  Table.contains_ofList_iff

/-- Declarations of the free variables of some expressions: by ascending name, one for each name that is
free in one of them, with the sort of the type it has where it occurs last. -/
structure DeclaresFree (es : List Expr) (ds : List Declaration) : Prop where
  ascending : ds.Pairwise fun d d' => compare d.name d'.name = .lt
  names : ∀ name, name ∈ ds.map Declaration.name ↔ ∃ e ∈ es, e.free.contains name = true
  sorts : ∀ d, d ∈ ds ↔ ∃ name ty s,
    Table.IsLast (es.flatMap occurrences) name ty ∧ ty.termSort = .ok s ∧ d = .const name s

/-- The constants of a term are the free variables of an expression, each with the sorts of the types it
occurs with, no function is applied in it, and models that agree on these variables give it one value. -/
structure DependsOnFree (e : Expr) (t : Term) : Prop where
  names : ∀ name, (∃ s, (Term.const name s).Occurs t) ↔ e.free.contains name = true
  constants : ∀ name s, (Term.const name s).Occurs t ↔ ∃ ty, (name, ty) ∈ e.occurrences ∧ ty.termSort = .ok s
  functions : ∀ f ts s, ¬(Term.apply f ts s).Occurs t
  value : ∀ m m' : Model, (∀ name, e.free.contains name = true → m.get? name = m'.get? name) →
    m.eval t = m'.eval t

end Expr

namespace Encoding.Notes

open Symex.Expr (DeclaresFree DependsOnFree occurrences)

variable {free free' : FreeSorts}

theorem termSort_iff {met : List (String × Ty)} {ts : List Term} (h : Notes free met ts free') {name : String}
    {ty : Ty} (hmem : (name, ty) ∈ met) {s : TermSort} : ty.termSort = .ok s ↔ ty.plainSort = s := by
  constructor
  · intro hs
    exact (Ty.termSort_eq_ok hs).symm
  · rintro rfl
    exact h.sorted _ hmem

/-- What was noted from the start has the last occurrence of each name. -/
theorem find?_iff {met : List (String × Ty)} {ts : List Term} (h : Notes [] met ts free') {name : String}
    {s : TermSort} :
    free'.find? name = some s ↔ ∃ ty, Table.IsLast met name ty ∧ ty.termSort = .ok s := by
  have hlast : Table.IsLast (met.map plainVariable) name s ↔
      ∃ ty, Table.IsLast met name ty ∧ ty.plainSort = s := Table.isLast_map
  have hfind : free'.find? name = some s ↔ Table.IsLast (met.map plainVariable) name s := by
    rw [h.noted]
    exact Table.find?_ofList_iff
  rw [hfind, hlast]
  refine exists_congr fun ty => and_congr_right fun hty => ?_
  exact (h.termSort_iff hty.mem).symm

theorem declaresFree {es : List Expr} {ts : List Term} (h : Notes [] (es.flatMap occurrences) ts free')
    {script : Smt.Script} (hs : script.declarations = []) :
    DeclaresFree es (free'.declareIn script).declarations := by
  have hasc : free'.Ascending := by
    rw [h.noted]
    exact Table.ascending_foldl_insert .nil _
  have hdecl : (free'.declareIn script).declarations = free'.map fun v => .const v.1 v.2 := by
    rw [FreeSorts.declarations_declareIn hasc (by simp [Smt.Script.declares, hs]), hs, List.nil_append]
  have hmem : ∀ d, d ∈ (free'.declareIn script).declarations ↔ ∃ name ty s,
      Table.IsLast (es.flatMap occurrences) name ty ∧ ty.termSort = .ok s ∧ d = .const name s := by
    intro d
    rw [hdecl, List.mem_map]
    constructor
    · rintro ⟨v, hv, rfl⟩
      obtain ⟨ty, hty, hsort⟩ := h.find?_iff.1 (hasc.find?_of_mem hv)
      exact ⟨v.1, ty, v.2, hty, hsort, rfl⟩
    · rintro ⟨name, ty, s, hty, hsort, rfl⟩
      exact ⟨(name, s), Table.mem_of_find? (h.find?_iff.2 ⟨ty, hty, hsort⟩), rfl⟩
  refine ⟨?_, fun name => ?_, hmem⟩
  · rw [hdecl, List.pairwise_map]
    exact hasc
  · simp only [List.mem_map, hmem, Expr.contains_free_iff]
    constructor
    · rintro ⟨_, ⟨name, ty, s, hty, -, rfl⟩, rfl⟩
      obtain ⟨e, he, hocc⟩ := List.mem_flatMap.1 hty.mem
      exact ⟨e, he, ty, hocc⟩
    · rintro ⟨e, he, ty, hocc⟩
      obtain ⟨ty', hty'⟩ := Table.exists_isLast_iff.2 ⟨ty, List.mem_flatMap.2 ⟨e, he, hocc⟩⟩
      exact ⟨_, ⟨name, ty', _, hty', h.sorted _ hty'.mem, rfl⟩, rfl⟩

theorem dependsOnFree {e : Expr} {t : Term} (h : Notes free e.occurrences [t] free') : DependsOnFree e t := by
  have hconst : t.HasConstants (e.occurrences.map plainVariable) := h.symbols
  obtain ⟨hmem, hfunctions, hvalue⟩ := hconst.dependsOn
  have hiff : ∀ name s, (Term.const name s).Occurs t ↔
      ∃ ty, (name, ty) ∈ e.occurrences ∧ ty.termSort = .ok s := by
    intro name s
    rw [hmem, List.mem_map]
    constructor
    · rintro ⟨⟨_, ty⟩, hocc, heq⟩
      cases heq
      exact ⟨ty, hocc, h.sorted _ hocc⟩
    · rintro ⟨ty, hocc, hsort⟩
      exact ⟨(name, ty), hocc, Prod.ext rfl ((h.termSort_iff hocc).1 hsort)⟩
  refine ⟨fun name => ?_, hiff, hfunctions, fun m m' hagree => hvalue m m' fun c hc => ?_⟩
  · simp only [hiff, Expr.contains_free_iff]
    constructor
    · rintro ⟨s, ty, hocc, -⟩
      exact ⟨ty, hocc⟩
    · rintro ⟨ty, hocc⟩
      exact ⟨_, ty, hocc, h.sorted _ hocc⟩
  · obtain ⟨v, hv, rfl⟩ := List.mem_map.1 hc
    exact hagree v.1 (Expr.contains_free_iff.2 ⟨v.2, hv⟩)

end Encoding.Notes

namespace Expr

theorem encodeAll_dependsOnFree {es : List Expr} {ts : List Term} {free free' : FreeSorts}
    (h : (encodeAll es).Gives free ts free') : List.Forall₂ DependsOnFree es ts := by
  induction es generalizing free ts with
  | nil =>
    obtain ⟨rfl, -⟩ := Encoding.gives_pure.1 h
    exact .nil
  | cons e es ih =>
    obtain ⟨t, us, mid, ht, hus, rfl⟩ := encodeAll_cons_gives.1 h
    exact .cons (encode_notes e ht).dependsOnFree (ih hus)

/-- **Expressions that encode together declare their free variables**, and the term of each depends on the
free variables of its expression, of which the last occurrence of a name decides the type. -/
theorem encodeEach_declares_support :
    (∀ (e : Expr) name ty, e.free.find? name = some ty ↔ Table.IsLast e.occurrences name ty) ∧
    ∀ {es : List Expr} {ts : List Term} {free : FreeSorts}, encodeEach [] es = (ts.map .ok, free) →
      ∀ {script : Smt.Script}, script.declarations = [] →
        DeclaresFree es (free.declareIn script).declarations ∧ List.Forall₂ DependsOnFree es ts := by
  refine ⟨fun e name ty => find?_free_iff, fun {es ts free} h {script} hs => ?_⟩
  have hgives := encodeAll_gives_of_each h
  have hnotes := encodeAll_notes es hgives
  rw [occurrencesAll_eq_flatMap] at hnotes
  exact ⟨hnotes.declaresFree hs, encodeAll_dependsOnFree hgives⟩

/-- `X` is an integer at first and a boolean at last. -/
def retyped : List Expr :=
  [.nary 4 .lt .bool [.any 1 "X" .int, .any 2 "Y" .int, .lit 3 (.int 5) none],
    .nary 8 .and .bool [.any 5 "X" .bool, .cast 7 .bool (.any 6 "A" .int)]]

/-- The terms of `retyped`. The chain mentions `Y` twice. -/
def retypedTerms : List Term :=
  [.and [.lt (.const "X" .int) (.const "Y" .int), .lt (.const "Y" .int) (.int 5)],
    .and [.const "X" .bool, .not (.eq (.const "A" .int) (.int 0))]]

theorem retyped_declares_support :
    encodeEach [] retyped = (retypedTerms.map .ok, [("A", .int), ("X", .bool), ("Y", .int)]) ∧
      DeclaresFree retyped [.const "A" .int, .const "X" .bool, .const "Y" .int] ∧
      List.Forall₂ DependsOnFree retyped retypedTerms := by
  have h : encodeEach [] retyped = (retypedTerms.map .ok, [("A", .int), ("X", .bool), ("Y", .int)]) := rfl
  exact ⟨h, encodeEach_declares_support.2 h (rfl : ({ logic := "ALL" } : Smt.Script).declarations = [])⟩

end Expr

end Symex
