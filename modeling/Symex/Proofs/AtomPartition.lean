import Mathlib.Data.List.Sort
import Symex.Proofs.Atoms

/-!
The atoms of a relation partition the pointers that its events touch. The partition is exact: an event
touches the whole of an atom or nothing of it. And it is the coarsest: two pointers are apart only if
some event tells them apart. Sorted, the atoms are listed by their least pointers, so they ascend.
-/

namespace Symex.Memory

/-! ### The order of zones -/

namespace Zone

variable {a b z : Zone}

theorem isBottom_eq_false_iff : z.isBottom = false ↔ ∃ p, p ∈ z := by
  unfold isBottom
  rw [List.isEmpty_eq_false_iff_exists_mem]
  exact Iff.rfl

theorem isBottom_meet_iff : (a.meet b).isBottom = true ↔ ∀ p ∈ a, p ∉ b := by
  rw [← Bool.not_eq_false, isBottom_eq_false_iff]
  simp

/-- A zone with a pointer below all of another comes first. -/
theorem compare_eq_lt {p : Nat} (hp : p ∈ a) (hb : b.isBottom = false) (h : ∀ q ∈ b, p < q) :
    compare a b = .lt := by
  obtain ⟨l, hl⟩ := a
  obtain ⟨m, hm⟩ := b
  show compare l m = .lt
  cases l with
  | nil => cases hp
  | cons x xs =>
    cases m with
    | nil => cases hb
    | cons y ys =>
      have hxp : x ≤ p := by
        rcases List.mem_cons.1 hp with rfl | hp
        · exact Nat.le_refl _
        · exact Nat.le_of_lt ((List.pairwise_cons.1 hl).1 p hp)
      have hpy : p < y := h y List.mem_cons_self
      have hxy : compare x y = .lt := Nat.compare_eq_lt.2 (Nat.lt_of_le_of_lt hxp hpy)
      rw [List.compare_cons_cons, hxy]
      rfl

instance : Std.TransOrd Zone := inferInstanceAs (Std.TransCmp (compareOn ptrs))

theorem eq_of_compare_isLE (hab : (compare a b).isLE = true) (hba : (compare b a).isLE = true) : a = b := by
  have heq : compare a.ptrs b.ptrs = .eq := Std.OrientedCmp.isLE_antisymm hab hba
  have hptrs : a.ptrs = b.ptrs := Std.LawfulEqCmp.eq_of_compare heq
  exact eq_of_mem_iff fun p => by rw [← mem_ptrs, ← mem_ptrs, hptrs]

theorem sort_eq_insertionSort (zs : List Zone) :
    sort zs = zs.insertionSort fun a b => (compare a b).isLE = true := by
  have hinsert : ∀ z ys, insertSorted z ys = ys.orderedInsert (fun a b => (compare a b).isLE = true) z := by
    intro z ys
    induction ys with
    | nil => rfl
    | cons y ys ih => rw [insertSorted, List.orderedInsert_cons, ih]
  induction zs with
  | nil => rfl
  | cons z zs ih =>
    rw [List.insertionSort_cons, ← ih, ← hinsert]
    rfl

/-- Zones that are sorted do not descend. -/
theorem pairwise_sort (zs : List Zone) : (sort zs).Pairwise fun a b => (compare a b).isLE = true := by
  have : IsTrans Zone fun a b => (compare a b).isLE = true := ⟨fun _ _ _ => Std.TransCmp.isLE_trans⟩
  have : Std.Total fun a b : Zone => (compare a b).isLE = true := by
    refine ⟨fun a b => ?_⟩
    cases h : compare a b with
    | lt | eq => exact .inl rfl
    | gt =>
      rw [Std.OrientedCmp.gt_iff_lt.1 h]
      exact .inr rfl
  rw [sort_eq_insertionSort]
  exact List.pairwise_insertionSort _ zs

end Zone

/-! ### Groups of an ascending list -/

/-- Keys that are listed by first use ascend by the least number that has them. -/
theorem pairwise_firstUses {κ : Type} [Ord κ] [Std.TransOrd κ] [Std.LawfulEqOrd κ] [DecidableEq κ]
    (key : Nat → κ) {l : List Nat} (hl : l.Pairwise (· < ·)) :
    (firstUses id (l.map key)).Pairwise fun j k =>
      ∃ p ∈ l, key p = j ∧ ∀ q ∈ l, key q = k → p < q := by
  induction l with
  | nil => simp
  | cons p l ih =>
    obtain ⟨hp, hl⟩ := List.pairwise_cons.1 hl
    rw [List.map_cons, firstUses_cons, List.pairwise_cons]
    refine ⟨fun k hk => ⟨p, List.mem_cons_self, rfl, fun q hq hqk => ?_⟩, ?_⟩
    · have hne : k ≠ key p := by simpa using (List.mem_filter.1 hk).2
      rcases List.mem_cons.1 hq with rfl | hq
      · exact absurd hqk.symm hne
      · exact hp q hq
    · -- the new least number has a key that is not among the others
      refine List.Pairwise.imp_of_mem ?_ ((ih hl).filter _)
      rintro j k - hk ⟨q, hq, hqj, hlt⟩
      have hne : k ≠ key p := by simpa using (List.mem_filter.1 hk).2
      refine ⟨q, List.mem_cons_of_mem _ hq, hqj, fun r hr hrk => ?_⟩
      rcases List.mem_cons.1 hr with rfl | hr
      · exact absurd hrk.symm hne
      · exact hlt r hr hrk

namespace Relation

variable {rel : Relation} {p q : Nat}

/-- A pointer that some event touches. -/
def Touched (rel : Relation) (p : Nat) : Prop := ∃ e ∈ rel.events, p ∈ e.zone

/-! ### Atoms and the events that touch them -/

/-- Events are known by their numbers, so the numbers of those that touch a pointer say which they are. -/
theorem touching_eq_iff :
    rel.touching p = rel.touching q ↔ ∀ e ∈ rel.events, p ∈ e.zone ↔ q ∈ e.zone := by
  constructor
  · intro h e he
    exact ⟨mem_zone_of_touching_eq h he, mem_zone_of_touching_eq h.symm he⟩
  · intro h
    unfold touching
    rw [List.filter_congr fun e he => decide_eq_decide.2 (h e he)]

theorem mem_atomOf_self (hp : rel.Touched p) : p ∈ rel.atomOf p := mem_atomOf.2 ⟨mem_pointers.2 hp, rfl⟩

theorem atomOf_mem_atoms (hp : rel.Touched p) : rel.atomOf p ∈ rel.atoms :=
  mem_atoms.2 ⟨p, mem_pointers.2 hp, rfl⟩

theorem atomOf_eq_of_mem (h : q ∈ rel.atomOf p) : rel.atomOf q = rel.atomOf p := by
  unfold atomOf
  rw [(mem_atomOf.1 h).2]

/-- An atom is the atom of each of its pointers. -/
theorem eq_atomOf {atom : Zone} (hatom : atom ∈ rel.atoms) (hp : p ∈ atom) : atom = rel.atomOf p := by
  obtain ⟨q, -, rfl⟩ := mem_atoms.1 hatom
  exact (atomOf_eq_of_mem hp).symm

theorem touched_of_mem_atom {atom : Zone} (hatom : atom ∈ rel.atoms) (hp : p ∈ atom) : rel.Touched p := by
  rw [eq_atomOf hatom hp] at hp
  exact mem_pointers.1 (mem_atomOf.1 hp).1

theorem atoms_nonbottom {atom : Zone} (hatom : atom ∈ rel.atoms) : atom.isBottom = false := by
  obtain ⟨p, hp, rfl⟩ := mem_atoms.1 hatom
  exact Zone.isBottom_eq_false_iff.2 ⟨p, mem_atomOf_self (mem_pointers.1 hp)⟩

/-- The atoms by ascending least pointer, read off the pointers without tables and without sorting. -/
def grouped (rel : Relation) : List Zone :=
  (firstUses id (rel.pointers.ptrs.map rel.touching)).map fun ids => rel.pointers.filter (rel.touching · = ids)

theorem mem_grouped {atom : Zone} : atom ∈ rel.grouped ↔ ∃ p ∈ rel.pointers, atom = rel.atomOf p := by
  unfold grouped
  rw [List.mem_map]
  constructor
  · rintro ⟨ids, hids, rfl⟩
    obtain ⟨p, hp, rfl⟩ := List.mem_map.1 (mem_of_mem_firstUses hids)
    exact ⟨p, hp, rfl⟩
  · rintro ⟨p, hp, rfl⟩
    exact ⟨_, mem_firstUses_id.2 (List.mem_map.2 ⟨p, hp, rfl⟩), rfl⟩

theorem grouped_ascending (rel : Relation) : rel.grouped.Pairwise fun a b => compare a b = .lt := by
  unfold grouped
  rw [List.pairwise_map]
  refine List.Pairwise.imp_of_mem ?_ (pairwise_firstUses rel.touching rel.pointers.ascending)
  rintro j k - hk ⟨p, hp, hpj, hlt⟩
  obtain ⟨q, hq, hqk⟩ := List.mem_map.1 (mem_of_mem_firstUses hk)
  refine Zone.compare_eq_lt (mem_filter_touching.2 ⟨hp, hpj⟩) ?_ fun r hr => ?_
  · exact Zone.isBottom_eq_false_iff.2 ⟨q, mem_filter_touching.2 ⟨hq, hqk⟩⟩
  · obtain ⟨hr, hrk⟩ := mem_filter_touching.1 hr
    exact hlt r hr hrk

/-- Different groups have no pointer in common, so they are different atoms. -/
theorem nodup_atoms (rel : Relation) : rel.atoms.Nodup := by
  unfold atoms
  rw [Zone.sort_eq_insertionSort, (List.perm_insertionSort _ _).nodup_iff, List.Nodup, List.pairwise_map]
  refine List.Pairwise.imp_of_mem ?_ rel.filed_groups.keys
  rintro ⟨ids, ps⟩ ⟨ids', ps'⟩ h h' hlt heq
  obtain ⟨hne, -, hmem⟩ := mem_groups.1 h
  obtain ⟨-, -, hmem'⟩ := mem_groups.1 h'
  obtain ⟨p, hp⟩ := List.exists_mem_of_ne_nil _ hne
  have hp' : p ∈ ps' := by
    rw [← Zone.mem_ofList] at hp ⊢
    exact heq ▸ hp
  have hids : ids = ids' := ((hmem p).1 hp).2.symm.trans ((hmem' p).1 hp').2
  rw [hids] at hlt
  simp at hlt

/-- **Sorting the groups lists them by their least pointers.** -/
theorem atoms_eq_grouped (rel : Relation) : rel.atoms = rel.grouped := by
  have hnodup : rel.grouped.Nodup := by
    refine rel.grouped_ascending.imp ?_
    rintro a b hlt rfl
    simp at hlt
  have hperm : rel.atoms.Perm rel.grouped :=
    (List.perm_ext_iff_of_nodup rel.nodup_atoms hnodup).2 fun z => mem_atoms.trans mem_grouped.symm
  refine hperm.eq_of_pairwise (fun a b _ _ hab hba => Zone.eq_of_compare_isLE hab hba)
    (Zone.pairwise_sort _) (rel.grouped_ascending.imp fun hlt => ?_)
  rw [hlt]
  rfl

/-- **Atoms ascend.** -/
theorem atoms_ascending (rel : Relation) : rel.atoms.Pairwise fun a b => compare a b = .lt := by
  rw [atoms_eq_grouped]
  exact rel.grouped_ascending

/-- Atoms that have a pointer in common are the same, so those that ascend have none. -/
theorem atoms_disjoint (rel : Relation) : rel.atoms.Pairwise fun a b => (a.meet b).isBottom = true := by
  refine List.Pairwise.imp_of_mem ?_ rel.atoms_ascending
  intro a b ha hb hlt
  refine Zone.isBottom_meet_iff.2 fun p hpa hpb => ?_
  have hab : a = b := (eq_atomOf ha hpa).trans (eq_atomOf hb hpb).symm
  simp [hab] at hlt

/-- Pointers are in one atom if and only if the same events touch them. -/
theorem exists_atom_iff (hp : rel.Touched p) :
    (∃ atom ∈ rel.atoms, p ∈ atom ∧ q ∈ atom) ↔ rel.touching p = rel.touching q := by
  constructor
  · rintro ⟨atom, hatom, hpa, hqa⟩
    rw [eq_atomOf hatom hqa] at hpa
    exact (mem_atomOf.1 hpa).2
  · intro h
    have hq : rel.Touched q := by
      obtain ⟨e, he, hpe⟩ := hp
      exact ⟨e, he, mem_zone_of_touching_eq h he hpe⟩
    exact ⟨rel.atomOf q, atomOf_mem_atoms hq, mem_atomOf.2 ⟨mem_pointers.2 hp, h⟩, mem_atomOf_self hq⟩

/-- An event touches an atom as it touches any of its pointers. -/
theorem overlaps_atom_iff {e : Event} {atom : Zone} (he : e ∈ rel.events) (hatom : atom ∈ rel.atoms)
    (hp : p ∈ atom) : e.zone.overlaps atom = true ↔ p ∈ e.zone := by
  have htouched := touched_of_mem_atom hatom hp
  rw [eq_atomOf hatom hp]
  exact overlaps_atomOf (mem_pointers.2 htouched) he

/-! ### The partition -/

/-- The coarsest exact partition of the pointers that the events of a relation touch. -/
structure ExactPartition (rel : Relation) (zones : List Zone) : Prop where
  nonbottom : ∀ z ∈ zones, z.isBottom = false
  disjoint : zones.Pairwise fun a b => (a.meet b).isBottom = true
  ascending : zones.Pairwise fun a b => compare a b = .lt
  /-- Together, the zones are all pointers that are touched. -/
  union : ∀ p, (∃ z ∈ zones, p ∈ z) ↔ rel.Touched p
  /-- Pointers are in one zone if and only if exactly the same events touch them. -/
  together : ∀ p q, rel.Touched p → rel.Touched q →
    ((∃ z ∈ zones, p ∈ z ∧ q ∈ z) ↔ ∀ e ∈ rel.events, p ∈ e.zone ↔ q ∈ e.zone)
  /-- An event touches a zone wholly or not at all. -/
  undivided : ∀ e ∈ rel.events, ∀ z ∈ zones, (∀ p ∈ z, p ∈ e.zone) ∨ (e.zone.meet z).isBottom = true
  /-- Events have a touched pointer in common if and only if there is a zone that all of them touch. -/
  common : ∀ es : List Event, (∀ e ∈ es, e ∈ rel.events) →
    ((∃ p, rel.Touched p ∧ ∀ e ∈ es, p ∈ e.zone) ↔ ∃ z ∈ zones, ∀ e ∈ es, e.zone.overlaps z = true)
  /-- Every zone of touched pointers that no event touches in part is within one of these. -/
  coarsest : ∀ z : Zone, z.isBottom = false → (∀ p ∈ z, rel.Touched p) →
    (∀ e ∈ rel.events, (∀ p ∈ z, p ∈ e.zone) ∨ (e.zone.meet z).isBottom = true) →
    ∃ y ∈ zones, ∀ p ∈ z, p ∈ y

/-- **The atoms of a relation are the coarsest exact partition of what its events touch.** -/
theorem atoms_exactPartition (rel : Relation) : rel.ExactPartition rel.atoms where
  nonbottom := fun _ => atoms_nonbottom
  disjoint := rel.atoms_disjoint
  ascending := rel.atoms_ascending
  union p := by
    constructor
    · rintro ⟨z, hz, hp⟩
      exact touched_of_mem_atom hz hp
    · exact fun hp => ⟨rel.atomOf p, atomOf_mem_atoms hp, mem_atomOf_self hp⟩
  together p q hp _ := by rw [exists_atom_iff hp, touching_eq_iff]
  undivided e he z hz := by
    cases ho : e.zone.overlaps z with
    | true => exact .inl fun p hp => (overlaps_atom_iff he hz hp).1 ho
    | false =>
      refine .inr (Zone.isBottom_meet_iff.2 fun p hpe hpz => ?_)
      rw [(overlaps_atom_iff he hz hpz).2 hpe] at ho
      cases ho
  common es hes := by
    constructor
    · rintro ⟨p, hp, hall⟩
      refine ⟨rel.atomOf p, atomOf_mem_atoms hp, fun e he => ?_⟩
      exact (overlaps_atom_iff (hes e he) (atomOf_mem_atoms hp) (mem_atomOf_self hp)).2 (hall e he)
    · rintro ⟨z, hz, hall⟩
      obtain ⟨p, hp⟩ := Zone.isBottom_eq_false_iff.1 (atoms_nonbottom hz)
      exact ⟨p, touched_of_mem_atom hz hp, fun e he => (overlaps_atom_iff (hes e he) hz hp).1 (hall e he)⟩
  coarsest z hz htouched hexact := by
    obtain ⟨p, hp⟩ := Zone.isBottom_eq_false_iff.1 hz
    refine ⟨rel.atomOf p, atomOf_mem_atoms (htouched p hp), fun q hq => ?_⟩
    refine mem_atomOf.2 ⟨mem_pointers.2 (htouched q hq), touching_eq_iff.2 fun e he => ?_⟩
    rcases hexact e he with hall | hmeet
    · exact ⟨fun _ => hall p hp, fun _ => hall q hq⟩
    · rw [Zone.isBottom_meet_iff] at hmeet
      exact ⟨fun hqe => absurd hq (hmeet q hqe), fun hpe => absurd hp (hmeet p hpe)⟩

end Relation

end Symex.Memory
