import Symex.Proofs.Native
import Symex.Proofs.Satisfaction

/-!
Terms by their operands. A chain is a conjunction of links between neighbours, and it holds if all neighbours
are related. A term occurs in another at some depth; what is said of all terms that occur in one can be said of
the term itself and of its operands. So a term is closed if it is declared itself, as far as it is a symbol,
and its operands are closed.
-/

namespace Symex.Smt

namespace Term

variable {t : Term} {ts : List Term}

/-! ### Chains -/

theorem sort_conj (h : ∀ t ∈ ts, t.sort = .ok .bool) : (conj ts).sort = .ok .bool := by
  unfold conj
  split
  · exact h _ (by simp)
  · rfl

/-- The links of a chain, one for each pair of neighbours. -/
theorem zipWith_links {α : Type} (link : Term → Term → Term) (f : α → Term) (l : List α) :
    (l.map f).zipWith link (l.map f).tail = (l.zip l.tail).map fun p => link (f p.1) (f p.2) := by
  rw [← List.map_tail, List.zipWith_map, List.zip, List.map_zipWith]

/-- A link of a chain is between two of its members. -/
theorem exists_link {link : Term → Term → Term} {t : Term}
    (h : t ∈ ts.zipWith link ts.tail) : ∃ x ∈ ts, ∃ y ∈ ts, link x y = t := by
  rw [← List.map_uncurry_zip_eq_zipWith] at h
  obtain ⟨p, hp, rfl⟩ := List.mem_map.1 h
  exact ⟨p.1, (List.of_mem_zip hp).1, p.2, List.mem_of_mem_tail (List.of_mem_zip hp).2, rfl⟩

theorem sort_chain {link : Term → Term → Term}
    (h : ∀ x y, (link x y).sort = .ok .bool) : (chain link ts).sort = .ok .bool := by
  refine sort_conj fun t ht => ?_
  obtain ⟨x, -, y, -, rfl⟩ := exists_link ht
  exact h x y

end Term

theorem Model.eval_chain {m : Model} {α : Type} {l : List α} {f : α → Term} {link : Term → Term → Term}
    {r : α → α → Bool} (h : ∀ x ∈ l, ∀ y ∈ l, m.eval (link (f x) (f y)) = .ok (.bool (r x y))) :
    m.eval (.chain link (l.map f)) = .ok (.bool (chained r l)) := by
  rw [Term.chain, Term.zipWith_links, chained_eq_all]
  exact eval_conj fun p hp =>
    h p.1 (List.of_mem_zip hp).1 p.2 (List.mem_of_mem_tail (List.of_mem_zip hp).2)

namespace Term

variable {t : Term} {ts : List Term}

/-! ### Occurrences -/

/-- The terms that a term is put together from. -/
def operands : Term → List Term
  | .bool _ | .int _ | .bitVec _ _ | .const _ _ => []
  | .apply _ ts _ | .and ts | .or ts | .distinct ts | .add ts => ts
  | .not t | .bvNot t | .signExtend _ t | .constArray _ t => [t]
  | .implies a b | .eq a b | .lt a b | .gt a b | .bvAdd a b | .bvSlt a b | .select a b => [a, b]
  | .ite a b c | .store a b c => [a, b, c]

/-- A term occurs in another at some depth. -/
inductive Occurs (u : Term) : Term → Prop
  | self : Occurs u u
  | operand {t v : Term} : v ∈ t.operands → Occurs u v → Occurs u t

/-- What holds wherever a term occurs holds of the whole term, and wherever one occurs in an operand. -/
theorem forall_occurs_iff {P : Term → Prop} :
    (∀ u, Occurs u t → P u) ↔ P t ∧ ∀ v ∈ t.operands, ∀ u, Occurs u v → P u := by
  constructor
  · intro h
    exact ⟨h t .self, fun v hv u hu => h u (.operand hv hu)⟩
  · rintro ⟨ht, hops⟩ u hu
    cases hu with
    | self => exact ht
    | operand hv hu => exact hops _ hv u hu

/-! ### Closed terms -/

/-- A symbol is declared with the sorts that it has in a term. A term that is no symbol needs no
declaration. -/
def DeclaredIn (ds : List Declaration) : Term → Prop
  | .const name s => .const name s ∈ ds
  | .apply func args s => ∃ sorts : List TermSort, args.map sort = sorts.map .ok ∧ .func func sorts s ∈ ds
  | _ => True

/-- All symbols in a term are declared. -/
def Closed (ds : List Declaration) (t : Term) : Prop := ∀ u, Occurs u t → u.DeclaredIn ds

variable {ds : List Declaration}

theorem closed_iff : t.Closed ds ↔ t.DeclaredIn ds ∧ ∀ v ∈ t.operands, v.Closed ds := forall_occurs_iff

theorem closed_leaf (hops : t.operands = []) (ht : t.DeclaredIn ds) : t.Closed ds := by
  refine closed_iff.2 ⟨ht, ?_⟩
  rw [hops]
  simp

theorem Closed.pair {a b : Term} (ha : a.Closed ds) (hb : b.Closed ds) (hops : t.operands = [a, b])
    (ht : t.DeclaredIn ds) : t.Closed ds := by
  refine closed_iff.2 ⟨ht, ?_⟩
  rw [hops]
  simp [ha, hb]

theorem closed_conj (h : ∀ t ∈ ts, t.Closed ds) : (conj ts).Closed ds := by
  unfold conj
  split
  · exact h _ (by simp)
  · exact closed_iff.2 ⟨trivial, h⟩

theorem closed_disj (h : ∀ t ∈ ts, t.Closed ds) : (disj ts).Closed ds := by
  unfold disj
  split
  · exact h _ (by simp)
  · exact closed_iff.2 ⟨trivial, h⟩

theorem closed_chain {link : Term → Term → Term} (h : ∀ x ∈ ts, ∀ y ∈ ts, (link x y).Closed ds) :
    (chain link ts).Closed ds := by
  refine closed_conj fun t ht => ?_
  obtain ⟨x, hx, y, hy, rfl⟩ := exists_link ht
  exact h x hx y hy

theorem closed_foldl_bvAdd (ht : t.Closed ds) (hts : ∀ u ∈ ts, u.Closed ds) :
    (ts.foldl .bvAdd t).Closed ds := by
  induction ts generalizing t with
  | nil => exact ht
  | cons u ts ih =>
    rw [List.forall_mem_cons] at hts
    exact ih (ht.pair hts.1 rfl trivial) hts.2

end Term

end Symex.Smt
