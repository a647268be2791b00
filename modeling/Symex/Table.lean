/-!
Finite maps as association lists with ascending keys. Keys are compared by their `Ord` instance; two
tables built by insertion that agree on every key are equal lists.
-/

namespace Symex

/-- A finite map; keys ascend. -/
abbrev Table (κ ν : Type) := List (κ × ν)

namespace Table

section
variable {κ ν : Type} [Ord κ]

/-- Sets a key, replacing the value it had. -/
def insert (k : κ) (v : ν) : Table κ ν → Table κ ν
  | [] => [(k, v)]
  | (j, w) :: rest =>
    match compare k j with
    | .lt => (k, v) :: (j, w) :: rest
    | .eq => (k, v) :: rest
    | .gt => (j, w) :: insert k v rest

def find? (k : κ) : Table κ ν → Option ν
  | [] => none
  | (j, w) :: rest => if compare k j = .eq then some w else find? k rest

def erase (k : κ) (t : Table κ ν) : Table κ ν := t.filter fun e => compare k e.1 != .eq

def contains (k : κ) (t : Table κ ν) : Bool := (t.find? k).isSome

/-- Replaces the value of a key, in its place. -/
def replace (k : κ) (v : ν) : Table κ ν → Table κ ν
  | [] => []
  | (j, w) :: rest => if compare k j = .eq then (k, v) :: rest else (j, w) :: replace k v rest

/-- Sets a key; one that the table has stays in its place. -/
def put (k : κ) (v : ν) (t : Table κ ν) : Table κ ν :=
  if t.contains k then t.replace k v else t.insert k v

/-- Inserts in order, so that a later entry of a key wins. -/
def ofList (entries : List (κ × ν)) : Table κ ν :=
  entries.foldl (fun t e => t.insert e.1 e.2) []

/-- Keys ascend, so that a key has one entry. -/
def Ascending (t : Table κ ν) : Prop := t.Pairwise fun e f => compare e.1 f.1 = .lt

theorem exists_of_find? {k : κ} {v : ν} {t : Table κ ν} (h : t.find? k = some v) :
    ∃ e ∈ t, e.2 = v := by
  induction t with
  | nil => cases h
  | cons e t ih =>
    unfold find? at h
    split at h
    · exact ⟨e, by simp, Option.some.inj h⟩
    · obtain ⟨e', he', hv⟩ := ih h
      exact ⟨e', List.mem_cons_of_mem _ he', hv⟩

/-- What holds of a default and of all entries holds of every lookup. -/
theorem forall_getD {P : ν → Prop} {d : ν} {t : Table κ ν} (hd : P d) (ht : ∀ e ∈ t, P e.2) (k : κ) :
    P ((t.find? k).getD d) := by
  cases hf : t.find? k with
  | none => exact hd
  | some v =>
    obtain ⟨e, he, rfl⟩ := exists_of_find? hf
    exact ht e he

theorem mem_of_mem_insert {k : κ} {v : ν} {e : κ × ν} {t : Table κ ν} (h : e ∈ t.insert k v) :
    e = (k, v) ∨ e ∈ t := by
  induction t with
  | nil => exact .inl (List.mem_singleton.1 h)
  | cons f t ih =>
    obtain ⟨j, w⟩ := f
    unfold insert at h
    split at h
    · exact (List.mem_cons.1 h).imp_right id
    · rcases List.mem_cons.1 h with h | h
      · exact .inl h
      · exact .inr (List.mem_cons_of_mem _ h)
    · rcases List.mem_cons.1 h with rfl | h
      · exact .inr (by simp)
      · exact (ih h).imp_right (List.mem_cons_of_mem _)

theorem mem_of_mem_replace {k : κ} {v : ν} {e : κ × ν} {t : Table κ ν} (h : e ∈ t.replace k v) :
    e = (k, v) ∨ e ∈ t := by
  induction t with
  | nil => cases h
  | cons f t ih =>
    unfold replace at h
    split at h
    · exact (List.mem_cons.1 h).imp_right (List.mem_cons_of_mem _)
    · rcases List.mem_cons.1 h with rfl | h
      · exact .inr List.mem_cons_self
      · exact (ih h).imp_right (List.mem_cons_of_mem _)

theorem mem_of_mem_put {k : κ} {v : ν} {e : κ × ν} {t : Table κ ν} (h : e ∈ t.put k v) :
    e = (k, v) ∨ e ∈ t := by
  unfold put at h
  split at h
  · exact mem_of_mem_replace h
  · exact mem_of_mem_insert h

theorem forall_mem_insert {P : κ × ν → Prop} {k : κ} {v : ν} {t : Table κ ν} (ht : ∀ e ∈ t, P e)
    (h : P (k, v)) : ∀ e ∈ t.insert k v, P e := by
  intro e he
  rcases mem_of_mem_insert he with rfl | he
  · exact h
  · exact ht e he

theorem forall_mem_put {P : κ × ν → Prop} {k : κ} {v : ν} {t : Table κ ν} (ht : ∀ e ∈ t, P e)
    (h : P (k, v)) : ∀ e ∈ t.put k v, P e := by
  intro e he
  rcases mem_of_mem_put he with rfl | he
  · exact h
  · exact ht e he

end

section
variable {κ ν : Type} [Ord κ] [Std.TransOrd κ]

theorem find?_insert_self (k : κ) (v : ν) (t : Table κ ν) : (t.insert k v).find? k = some v := by
  induction t with
  | nil => simp [insert, find?]
  | cons e rest ih =>
    obtain ⟨j, w⟩ := e
    unfold insert
    split <;> simp_all [find?]

theorem find?_insert_of_ne {k i : κ} (h : compare i k ≠ .eq) (v : ν) (t : Table κ ν) :
    (t.insert k v).find? i = t.find? i := by
  induction t with
  | nil => simp [insert, find?, h]
  | cons e rest ih =>
    obtain ⟨j, w⟩ := e
    unfold insert
    split
    · simp [find?, h]
    · next hk =>
      have hij : compare i j ≠ .eq := fun hij =>
        h (Std.TransCmp.eq_trans hij (Std.OrientedCmp.eq_symm hk))
      simp [find?, h, hij]
    · simp [find?, ih]

theorem find?_replace_self {k : κ} {t : Table κ ν} (h : t.contains k = true) (v : ν) :
    (t.replace k v).find? k = some v := by
  unfold contains at h
  induction t with
  | nil => cases h
  | cons e t ih =>
    rw [find?] at h
    rw [replace]
    split
    · simp [find?]
    · next hne =>
      rw [if_neg hne] at h
      rw [find?, if_neg hne, ih h]

theorem find?_replace_of_ne {k i : κ} (h : compare i k ≠ .eq) (v : ν) (t : Table κ ν) :
    (t.replace k v).find? i = t.find? i := by
  induction t with
  | nil => rfl
  | cons e t ih =>
    rw [replace]
    split
    · next hk =>
      have hie : compare i e.1 ≠ .eq := fun hie =>
        h (Std.TransCmp.eq_trans hie (Std.OrientedCmp.eq_symm hk))
      rw [find?, find?, if_neg h, if_neg hie]
    · rw [find?, find?, ih]

theorem find?_put_self (k : κ) (v : ν) (t : Table κ ν) : (t.put k v).find? k = some v := by
  unfold put
  split
  · next hk => exact find?_replace_self hk v
  · exact find?_insert_self k v t

theorem find?_put_of_ne {k i : κ} (h : compare i k ≠ .eq) (v : ν) (t : Table κ ν) :
    (t.put k v).find? i = t.find? i := by
  unfold put
  split
  · exact find?_replace_of_ne h v t
  · exact find?_insert_of_ne h v t

end

section
variable {κ ν : Type} [Ord κ] [Std.LawfulEqOrd κ] {t : Table κ ν} {k : κ}

theorem mem_of_find? {v : ν} (h : t.find? k = some v) : (k, v) ∈ t := by
  induction t with
  | nil => cases h
  | cons e t ih =>
    unfold find? at h
    split at h
    · next hk =>
      cases h
      cases Std.LawfulEqCmp.eq_of_compare hk
      exact List.mem_cons_self
    · exact List.mem_cons_of_mem _ (ih h)

/-- **Setting a key to the value it has changes nothing.** -/
theorem put_of_find? {v : ν} (h : t.find? k = some v) : t.put k v = t := by
  rw [put, if_pos (by rw [contains, h]; rfl)]
  induction t with
  | nil => cases h
  | cons e t ih =>
    unfold find? at h
    rw [replace]
    split at h
    · next hk =>
      cases h
      cases Std.LawfulEqCmp.eq_of_compare hk
      rw [if_pos hk]
    · next hk => rw [if_neg hk, ih h]

theorem isSome_find?_iff : (t.find? k).isSome ↔ k ∈ t.map Prod.fst := by
  induction t with
  | nil => simp [find?]
  | cons e t ih =>
    rw [find?, List.map_cons, List.mem_cons, ← ih]
    split
    · next hk => simp [Std.LawfulEqCmp.eq_of_compare hk]
    · next hk =>
      have hne : k ≠ e.1 := fun h => hk (Std.compare_eq_iff_eq.2 h)
      simp [hne]

theorem find?_eq_none_iff : t.find? k = none ↔ k ∉ t.map Prod.fst := by
  rw [← isSome_find?_iff, Option.not_isSome_iff_eq_none]

theorem Ascending.nodup (h : t.Ascending) : t.Nodup := by
  refine List.Pairwise.imp (fun hlt heq => ?_) h
  simp [heq] at hlt

end

section
variable {κ ν : Type} [Ord κ] [Std.TransOrd κ] [Std.LawfulEqOrd κ]

theorem find?_foldl_insert {l : List (κ × ν)} {k : κ} {v : ν} (h : ∀ e ∈ l, e.1 = k → e.2 = v)
    {t : Table κ ν} (hk : (k, v) ∈ l ∨ t.find? k = some v) :
    (l.foldl (fun t e => t.insert e.1 e.2) t).find? k = some v := by
  induction l generalizing t with
  | nil => exact hk.resolve_left (by simp)
  | cons e l ih =>
    rw [List.forall_mem_cons] at h
    refine ih h.2 ?_
    by_cases hek : e.1 = k
    · right
      show find? k (insert e.1 e.2 t) = _
      rw [hek, find?_insert_self, h.1 hek]
    · refine hk.imp (fun hmem => ?_) fun hfind => ?_
      · exact (List.mem_cons.1 hmem).resolve_left fun heq => hek (congrArg Prod.fst heq.symm)
      · rw [find?_insert_of_ne fun heq => hek (Std.LawfulEqCmp.eq_of_compare heq).symm, hfind]

/-- An entry is found if its key has no other value. -/
theorem find?_ofList {l : List (κ × ν)} {k : κ} {v : ν} (hmem : (k, v) ∈ l)
    (h : ∀ e ∈ l, e.1 = k → e.2 = v) : (ofList l).find? k = some v :=
  find?_foldl_insert h (.inl hmem)

variable {t u : Table κ ν}

theorem Ascending.insert (h : t.Ascending) (k : κ) (v : ν) : (t.insert k v).Ascending := by
  induction t with
  | nil => exact List.pairwise_singleton _ _
  | cons e t ih =>
    obtain ⟨j, w⟩ := e
    obtain ⟨hj, ht⟩ := List.pairwise_cons.1 h
    unfold Table.insert
    split
    · next hk =>
      refine List.pairwise_cons.2 ⟨fun f hf => ?_, h⟩
      rcases List.mem_cons.1 hf with rfl | hf
      · exact hk
      · exact Std.TransCmp.lt_trans hk (hj f hf)
    · next hk =>
      cases Std.LawfulEqCmp.eq_of_compare hk
      exact List.pairwise_cons.2 ⟨hj, ht⟩
    · next hk =>
      refine List.pairwise_cons.2 ⟨fun f hf => ?_, ih ht⟩
      rcases mem_of_mem_insert hf with rfl | hf
      · exact Std.OrientedCmp.gt_iff_lt.1 hk
      · exact hj f hf

theorem Ascending.find?_of_mem (h : t.Ascending) {e : κ × ν} (he : e ∈ t) : t.find? e.1 = some e.2 := by
  induction t with
  | nil => cases he
  | cons f t ih =>
    obtain ⟨hf, ht⟩ := List.pairwise_cons.1 h
    unfold find?
    rcases List.mem_cons.1 he with rfl | he
    · rw [if_pos Std.ReflCmp.compare_self]
    · have hgt : compare e.1 f.1 = .gt := Std.OrientedCmp.gt_iff_lt.2 (hf e he)
      rw [if_neg (by simp [hgt])]
      exact ih ht he

/-- **Tables that agree on every key are equal.** -/
theorem Ascending.ext (ht : t.Ascending) (hu : u.Ascending) (h : ∀ k, t.find? k = u.find? k) : t = u := by
  have hmem : ∀ e, e ∈ t ↔ e ∈ u := fun e =>
    ⟨fun he => mem_of_find? ((h e.1).symm.trans (ht.find?_of_mem he)),
      fun he => mem_of_find? ((h e.1).trans (hu.find?_of_mem he))⟩
  have hperm : t.Perm u := (List.perm_ext_iff_of_nodup ht.nodup hu.nodup).2 hmem
  refine hperm.eq_of_pairwise (fun e f _ _ hef hfe => ?_) ht hu
  exact absurd (Std.TransCmp.lt_trans hef hfe) (by simp)

end

end Table

end Symex
