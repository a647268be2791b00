import Symex.Memory.Order

/-!
The events of a relation by the pointers they touch. Pointers are filed by the events that touch them, so an
atom stands for each pointer in it: an event touches the atom if and only if it touches the pointer. Events
have a pointer in common if and only if there is an atom that all of them touch, and the triples of all atoms
are those of all pointers.
-/

namespace Symex.Memory

/-! ### First uses -/

section
variable {α κ : Type} [Ord κ] [Std.TransOrd κ] [Std.LawfulEqOrd κ] [DecidableEq κ]

theorem mem_of_mem_firstUses {key : α → κ} {l : List α} {a : α} (h : a ∈ firstUses key l) : a ∈ l := by
  induction l with
  | nil => simp at h
  | cons b l ih =>
    rw [firstUses_cons] at h
    rcases List.mem_cons.1 h with rfl | h
    · simp
    · exact List.mem_cons_of_mem _ (ih (List.mem_filter.1 h).1)

/-- Every key that is used is used first by someone. -/
theorem exists_mem_firstUses (key : α → κ) {l : List α} {a : α} (h : a ∈ l) :
    ∃ b ∈ firstUses key l, key b = key a := by
  induction l with
  | nil => simp at h
  | cons b l ih =>
    rw [firstUses_cons]
    by_cases hk : key a = key b
    · exact ⟨b, by simp, hk.symm⟩
    · have hal : a ∈ l := (List.mem_cons.1 h).resolve_left fun hab => hk (congrArg key hab)
      obtain ⟨c, hc, hkc⟩ := ih hal
      refine ⟨c, List.mem_cons_of_mem _ (List.mem_filter.2 ⟨hc, ?_⟩), hkc⟩
      simpa [hkc] using hk

theorem mem_map_firstUses {key : α → κ} {l : List α} {k : κ} :
    k ∈ (firstUses key l).map key ↔ k ∈ l.map key := by
  simp only [List.mem_map]
  constructor
  · rintro ⟨a, ha, rfl⟩
    exact ⟨a, mem_of_mem_firstUses ha, rfl⟩
  · rintro ⟨a, ha, rfl⟩
    exact exists_mem_firstUses key ha

/-- Elements that come first have different keys. -/
theorem nodup_map_firstUses (key : α → κ) (l : List α) : ((firstUses key l).map key).Nodup := by
  induction l with
  | nil => simp
  | cons a l ih =>
    rw [firstUses_cons, List.map_cons, List.nodup_cons]
    refine ⟨?_, ih.sublist (List.filter_sublist.map key)⟩
    simp [List.mem_map, List.mem_filter]

theorem nodup_firstUses_id (l : List κ) : (firstUses id l).Nodup := by
  have h := nodup_map_firstUses id l
  rwa [List.map_id] at h

theorem mem_firstUses_id {l : List κ} {k : κ} : k ∈ firstUses id l ↔ k ∈ l := by
  have h : k ∈ (firstUses id l).map id ↔ k ∈ l.map id := mem_map_firstUses
  rwa [List.map_id, List.map_id] at h

/-- A last element is a first use if its key is new. -/
theorem firstUses_concat (key : α → κ) (l : List α) (a : α) :
    firstUses key (l ++ [a]) =
      if key a ∈ l.map key then firstUses key l else firstUses key l ++ [a] := by
  induction l with
  | nil => simp [firstUses_cons]
  | cons b l ih =>
    rw [List.cons_append, firstUses_cons, ih, firstUses_cons, List.map_cons]
    by_cases hl : key a ∈ l.map key
    · rw [if_pos hl, if_pos (List.mem_cons_of_mem _ hl)]
    · rw [if_neg hl, List.filter_append]
      by_cases hb : key a = key b
      · simp [hb]
      · simp [hb, hl]

end

/-! ### Numbers under keys -/

section
variable {κ : Type} [Ord κ] {t : Table κ (List Nat)} {entries : List (κ × Nat)} {k : κ} {n : Nat}

/-- A table holds what was filed: under each key numbers ascend, and a key is there if it has a number. -/
structure Filed (t : Table κ (List Nat)) (entries : List (κ × Nat)) : Prop where
  keys : t.Ascending
  ascending : ∀ k, ((t.find? k).getD []).Pairwise (· < ·)
  mem_iff : ∀ k n, n ∈ (t.find? k).getD [] ↔ (k, n) ∈ entries
  nonempty : ∀ k, t.find? k ≠ some []

theorem filed_nil : Filed ([] : Table κ (List Nat)) [] where
  keys := List.Pairwise.nil
  ascending _ := List.Pairwise.nil
  mem_iff _ _ := by simp [Table.find?]
  nonempty _ := by simp [Table.find?]

variable [Std.TransOrd κ]

theorem find?_file_self (k : κ) (n : Nat) (t : Table κ (List Nat)) :
    (file k n t).find? k = some (insertAscending n ((t.find? k).getD [])) :=
  Table.find?_insert_self k _ t

variable [Std.LawfulEqOrd κ]

theorem find?_file_of_ne {j : κ} (h : j ≠ k) (n : Nat) (t : Table κ (List Nat)) :
    (file k n t).find? j = t.find? j :=
  Table.find?_insert_of_ne (fun hjk => h (Std.LawfulEqCmp.eq_of_compare hjk)) _ t

/-- **Filing one more number.** -/
theorem Filed.file (h : Filed t entries) (k : κ) (n : Nat) : Filed (file k n t) (entries ++ [(k, n)]) where
  keys := h.keys.insert k _
  ascending j := by
    by_cases hj : j = k
    · subst hj
      rw [find?_file_self]
      exact pairwise_insertAscending (h.ascending j)
    · rw [find?_file_of_ne hj]
      exact h.ascending j
  mem_iff j m := by
    by_cases hj : j = k
    · subst hj
      rw [find?_file_self, Option.getD_some, mem_insertAscending, h.mem_iff]
      simp [or_comm]
    · rw [find?_file_of_ne hj, h.mem_iff]
      simp [hj]
  nonempty j := by
    by_cases hj : j = k
    · subst hj
      rw [find?_file_self]
      intro heq
      have hn : n ∈ insertAscending n ((t.find? j).getD []) := mem_insertAscending.2 (.inl rfl)
      rw [Option.some.inj heq] at hn
      cases hn
    · rw [find?_file_of_ne hj]
      exact h.nonempty j

/-- **Filing all numbers of a list.** -/
theorem Filed.foldl (h : Filed t entries) (more : List (κ × Nat)) :
    Filed (more.foldl (fun t e => Memory.file e.1 e.2 t) t) (entries ++ more) := by
  induction more generalizing t entries with
  | nil => rwa [List.append_nil]
  | cons e more ih =>
    have hnext := ih (h.file e.1 e.2)
    rwa [List.append_assoc] at hnext

/-- The entries of the table are the keys with all that was filed under them. -/
theorem Filed.mem_table_iff (h : Filed t entries) {ns : List Nat} :
    (k, ns) ∈ t ↔ ns ≠ [] ∧ ns.Pairwise (· < ·) ∧ ∀ n, n ∈ ns ↔ (k, n) ∈ entries := by
  constructor
  · intro hmem
    have hfind : t.find? k = some ns := h.keys.find?_of_mem hmem
    have hasc := h.ascending k
    have hiff := h.mem_iff k
    rw [hfind] at hasc hiff
    refine ⟨?_, hasc, hiff⟩
    rintro rfl
    exact h.nonempty k hfind
  · rintro ⟨hne, hasc, hiff⟩
    have hns : (t.find? k).getD [] = ns :=
      eq_of_ascending_of_mem_iff (h.ascending k) hasc fun n => (h.mem_iff k n).trans (hiff n).symm
    cases hfind : t.find? k with
    | none =>
      rw [hfind] at hns
      exact absurd hns.symm hne
    | some ms =>
      rw [hfind] at hns
      cases hns
      exact Table.mem_of_find? hfind

end

/-- Events by ascending number are known by their numbers. -/
theorem eq_of_ascending {l : List Event} (hl : l.Pairwise (·.id < ·.id)) {e f : Event} (he : e ∈ l)
    (hf : f ∈ l) (h : e.id = f.id) : e = f := by
  induction l with
  | nil => simp at he
  | cons g l ih =>
    obtain ⟨hg, hl⟩ := List.pairwise_cons.1 hl
    rcases List.mem_cons.1 he with rfl | he'
    · rcases List.mem_cons.1 hf with rfl | hf'
      · rfl
      · have := hg f hf'
        omega
    · rcases List.mem_cons.1 hf with rfl | hf'
      · have := hg e he'
        omega
      · exact ih hl he' hf'

namespace Relation

variable {rel : Relation} {e f : Event} {p : Nat}

/-! ### Events -/

theorem eq_of_id_eq (he : e ∈ rel.events) (hf : f ∈ rel.events) (h : e.id = f.id) : e = f :=
  eq_of_ascending rel.ascending he hf h

/-- Events in ascending order are each there once. -/
theorem nodup_events (rel : Relation) : rel.events.Nodup := by
  refine rel.ascending.imp ?_
  rintro e f hlt rfl
  exact Nat.lt_irrefl _ hlt

theorem mem_find {z : Zone} {test : Event → Bool} :
    e ∈ rel.find z test ↔ e ∈ rel.events ∧ e.zone.overlaps z = true ∧ test e = true := by
  simp [find]

theorem mem_reads : e ∈ rel.reads ↔ e ∈ rel.events ∧ e.isRead = true := by
  simp [reads]

theorem mem_writes : e ∈ rel.writes ↔ e ∈ rel.events ∧ e.isWrite = true := by
  simp [writes]

/-! ### Atoms -/

/-- All pointers that events touch. -/
def pointers (rel : Relation) : Zone := rel.events.foldr (fun e z => e.zone.join z) .bottom

/-- The numbers of the events that touch a pointer. -/
def touching (rel : Relation) (p : Nat) : List Nat := (rel.events.filter fun e => p ∈ e.zone).map (·.id)

theorem mem_pointers : p ∈ rel.pointers ↔ ∃ e ∈ rel.events, p ∈ e.zone := by
  unfold pointers
  induction rel.events with
  | nil => simp [Zone.bottom, ← Zone.mem_ptrs]
  | cons e l ih => simp [ih]

theorem mem_touching {id : Nat} : id ∈ rel.touching p ↔ ∃ e ∈ rel.events, p ∈ e.zone ∧ e.id = id := by
  simp [touching, and_assoc]

theorem touching_ascending (rel : Relation) (p : Nat) : (rel.touching p).Pairwise (· < ·) :=
  List.pairwise_map.2 (rel.ascending.filter _)

/-- Pointers touched by the same events are touched by an event together. -/
theorem mem_zone_of_touching_eq {q : Nat} (h : rel.touching q = rel.touching p) (he : e ∈ rel.events)
    (hq : q ∈ e.zone) : p ∈ e.zone := by
  have hid : e.id ∈ rel.touching p := h ▸ mem_touching.2 ⟨e, he, hq, rfl⟩
  obtain ⟨f, hf, hp, hfe⟩ := mem_touching.1 hid
  rwa [← eq_of_id_eq hf he hfe]

theorem mem_filter_touching {ids : List Nat} {q : Nat} :
    q ∈ rel.pointers.filter (rel.touching · = ids) ↔ q ∈ rel.pointers ∧ rel.touching q = ids := by
  show q ∈ rel.pointers.ptrs.filter _ ↔ _
  rw [List.mem_filter, decide_eq_true_eq, Zone.mem_ptrs]

/-- The atom of a pointer: the pointers that are touched by the same events. -/
def atomOf (rel : Relation) (p : Nat) : Zone := rel.pointers.filter (rel.touching · = rel.touching p)

theorem mem_atomOf {q : Nat} :
    q ∈ rel.atomOf p ↔ q ∈ rel.pointers ∧ rel.touching q = rel.touching p := mem_filter_touching

/-- Each pointer is filed with the events that touch it. -/
theorem filed_touchers (rel : Relation) :
    Filed rel.touchers (rel.events.flatMap fun e => e.zone.ptrs.map (·, e.id)) := by
  have h := filed_nil.foldl (rel.events.flatMap fun e => e.zone.ptrs.map (·, e.id))
  rw [List.foldl_flatMap] at h
  simp only [List.foldl_map] at h
  exact h

theorem mem_touchers {ids : List Nat} : (p, ids) ∈ rel.touchers ↔ p ∈ rel.pointers ∧ rel.touching p = ids := by
  have hentry : ∀ n, (p, n) ∈ rel.events.flatMap (fun e => e.zone.ptrs.map (·, e.id)) ↔
      n ∈ rel.touching p := by
    intro n
    simp only [List.mem_flatMap, List.mem_map, Prod.mk.injEq, Zone.mem_ptrs, mem_touching]
    constructor
    · rintro ⟨e, he, q, hq, rfl, rfl⟩
      exact ⟨e, he, hq, rfl⟩
    · rintro ⟨e, he, hp, rfl⟩
      exact ⟨e, he, p, hp, rfl, rfl⟩
  rw [rel.filed_touchers.mem_table_iff]
  simp only [hentry]
  constructor
  · rintro ⟨hne, hasc, hiff⟩
    obtain rfl := eq_of_ascending_of_mem_iff hasc (rel.touching_ascending p) hiff
    obtain ⟨id, hid⟩ := List.exists_mem_of_ne_nil _ hne
    obtain ⟨e, he, hp, -⟩ := mem_touching.1 hid
    exact ⟨mem_pointers.2 ⟨e, he, hp⟩, rfl⟩
  · rintro ⟨hp, rfl⟩
    obtain ⟨e, he, hpe⟩ := mem_pointers.1 hp
    refine ⟨List.ne_nil_of_mem (mem_touching.2 ⟨e, he, hpe, rfl⟩), rel.touching_ascending p, fun _ => Iff.rfl⟩

/-- The events that touch a pointer are filed with it. -/
theorem filed_groups (rel : Relation) : Filed rel.groups (rel.touchers.map fun e => (e.2, e.1)) := by
  have h := filed_nil.foldl (rel.touchers.map fun e => (e.2, e.1))
  rwa [List.foldl_map] at h

theorem mem_groups {ids ps : List Nat} : (ids, ps) ∈ rel.groups ↔ ps ≠ [] ∧ ps.Pairwise (· < ·) ∧
    ∀ q, q ∈ ps ↔ q ∈ rel.pointers ∧ rel.touching q = ids := by
  have hentry : ∀ q, (ids, q) ∈ rel.touchers.map (fun e => (e.2, e.1)) ↔
      q ∈ rel.pointers ∧ rel.touching q = ids := by
    intro q
    rw [← mem_touchers, List.mem_map]
    constructor
    · rintro ⟨⟨_, _⟩, he, heq⟩
      cases heq
      exact he
    · exact fun he => ⟨_, he, rfl⟩
  rw [rel.filed_groups.mem_table_iff]
  simp only [hentry]

/-- Groups are atoms of pointers, -/
theorem ofList_eq_atomOf {ids ps : List Nat} (h : (ids, ps) ∈ rel.groups) (hp : p ∈ ps) :
    Zone.ofList ps = rel.atomOf p := by
  obtain ⟨-, -, hmem⟩ := mem_groups.1 h
  refine Zone.eq_of_mem_iff fun q => ?_
  rw [Zone.mem_ofList, hmem, mem_atomOf, ((hmem p).1 hp).2]

/-- and a group is its own atom. -/
theorem group_mem_groups (hp : p ∈ rel.pointers) : (rel.touching p, (rel.atomOf p).ptrs) ∈ rel.groups := by
  refine mem_groups.2 ⟨?_, (rel.atomOf p).ascending, fun q => mem_atomOf⟩
  exact List.ne_nil_of_mem (mem_atomOf.2 ⟨hp, rfl⟩)

theorem mem_atoms {atom : Zone} : atom ∈ rel.atoms ↔ ∃ p ∈ rel.pointers, atom = rel.atomOf p := by
  unfold atoms
  rw [Zone.mem_sort, List.mem_map]
  constructor
  · rintro ⟨⟨ids, ps⟩, h, rfl⟩
    obtain ⟨hne, -, hmem⟩ := mem_groups.1 h
    obtain ⟨p, hp⟩ := List.exists_mem_of_ne_nil _ hne
    exact ⟨p, ((hmem p).1 hp).1, ofList_eq_atomOf h hp⟩
  · rintro ⟨p, hp, rfl⟩
    exact ⟨_, group_mem_groups hp, ofList_eq_atomOf (group_mem_groups hp) (mem_atomOf.2 ⟨hp, rfl⟩)⟩

/-- **An event touches the atom of a pointer if and only if it touches the pointer.** -/
theorem overlaps_atomOf (hp : p ∈ rel.pointers) (he : e ∈ rel.events) :
    e.zone.overlaps (rel.atomOf p) = true ↔ p ∈ e.zone := by
  rw [Zone.overlaps_iff]
  constructor
  · rintro ⟨q, hq, ha⟩
    exact mem_zone_of_touching_eq (mem_atomOf.1 ha).2 he hq
  · exact fun h => ⟨p, h, mem_atomOf.2 ⟨hp, rfl⟩⟩

end Relation

/-! ### Triples -/

section
variable {rel : Relation} {x y r : Event}

theorem mem_frTriples {atom : Zone} : (x, y, r) ∈ frTriples rel atom ↔
    x ∈ rel.find atom (·.isWrite) ∧ y ∈ rel.find atom (·.isWrite) ∧ y.id ≠ x.id ∧
      r ∈ rel.find atom (·.isRead) := by
  simp only [frTriples, Relation.partition, List.mem_flatMap, List.mem_filter, List.mem_map,
    Prod.mk.injEq, decide_eq_true_eq]
  constructor
  · rintro ⟨_, hx, _, ⟨hy, hne⟩, _, hr, rfl, rfl, rfl⟩
    exact ⟨hx, hy, hne, hr⟩
  · exact fun ⟨hx, hy, hne, hr⟩ => ⟨x, hx, y, ⟨hy, hne⟩, r, hr, rfl, rfl, rfl⟩

theorem exists_atom_of_mem_allFrTriples (h : (x, y, r) ∈ allFrTriples rel) :
    ∃ atom ∈ rel.atoms, (x, y, r) ∈ frTriples rel atom :=
  List.mem_flatMap.1 (mem_of_mem_firstUses h)

/-- Events are known by their numbers, so keeping one triple for each three numbers loses none. -/
theorem mem_allFrTriples_of_atom {atom : Zone} (hatom : atom ∈ rel.atoms)
    (h : (x, y, r) ∈ frTriples rel atom) : (x, y, r) ∈ allFrTriples rel := by
  obtain ⟨⟨x', y', r'⟩, hmem, hkey⟩ := exists_mem_firstUses
    (fun t : Event × Event × Event => [t.1.id, t.2.1.id, t.2.2.id])
    (List.mem_flatMap.2 ⟨atom, hatom, h⟩)
  obtain ⟨atom', -, h'⟩ := exists_atom_of_mem_allFrTriples hmem
  simp only [mem_frTriples, Relation.mem_find] at h h'
  obtain ⟨hx, hy, hr⟩ : x'.id = x.id ∧ y'.id = y.id ∧ r'.id = r.id := by simpa using hkey
  rw [← Relation.eq_of_id_eq h'.1.1 h.1.1 hx, ← Relation.eq_of_id_eq h'.2.1.1 h.2.1.1 hy,
    ← Relation.eq_of_id_eq h'.2.2.2.1 h.2.2.2.1 hr]
  exact hmem

/-- **The triples are two different writes and a read with a pointer in common.** -/
theorem mem_allFrTriples : (x, y, r) ∈ allFrTriples rel ↔
    x ∈ rel.writes ∧ y ∈ rel.writes ∧ r ∈ rel.reads ∧ y.id ≠ x.id ∧
      ∃ p, p ∈ x.zone ∧ p ∈ y.zone ∧ p ∈ r.zone := by
  simp only [Relation.mem_writes, Relation.mem_reads]
  constructor
  · intro h
    obtain ⟨atom, hatom, h⟩ := exists_atom_of_mem_allFrTriples h
    obtain ⟨p, hp, rfl⟩ := Relation.mem_atoms.1 hatom
    simp only [mem_frTriples, Relation.mem_find] at h
    obtain ⟨⟨hx, hxa, hxw⟩, ⟨hy, hya, hyw⟩, hne, hr, hra, hrr⟩ := h
    refine ⟨⟨hx, hxw⟩, ⟨hy, hyw⟩, ⟨hr, hrr⟩, hne, p, ?_, ?_, ?_⟩
    · exact (Relation.overlaps_atomOf hp hx).1 hxa
    · exact (Relation.overlaps_atomOf hp hy).1 hya
    · exact (Relation.overlaps_atomOf hp hr).1 hra
  · rintro ⟨⟨hx, hxw⟩, ⟨hy, hyw⟩, ⟨hr, hrr⟩, hne, p, hpx, hpy, hpr⟩
    have hp : p ∈ rel.pointers := Relation.mem_pointers.2 ⟨x, hx, hpx⟩
    refine mem_allFrTriples_of_atom (Relation.mem_atoms.2 ⟨p, hp, rfl⟩) ?_
    simp only [mem_frTriples, Relation.mem_find]
    exact ⟨⟨hx, (Relation.overlaps_atomOf hp hx).2 hpx, hxw⟩,
      ⟨hy, (Relation.overlaps_atomOf hp hy).2 hpy, hyw⟩, hne,
      hr, (Relation.overlaps_atomOf hp hr).2 hpr, hrr⟩

end

end Symex.Memory
