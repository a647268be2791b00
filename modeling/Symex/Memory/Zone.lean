/-!
Zones: finite sets of pointers, held as ascending lists so that equal sets are equal lists. An
address is the zone an access may touch, with a mark whether other threads can see it.
-/

namespace Symex.Memory

/-- Puts a number in its place in an ascending list, once. -/
def insertAscending (p : Nat) : List Nat → List Nat
  | [] => [p]
  | q :: qs => if p < q then p :: q :: qs else if p = q then q :: qs else q :: insertAscending p qs

theorem mem_insertAscending {p q : Nat} {l : List Nat} :
    p ∈ insertAscending q l ↔ p = q ∨ p ∈ l := by
  induction l with
  | nil => simp [insertAscending]
  | cons r rs ih =>
    unfold insertAscending
    split
    · simp
    · split
      · next h => subst h; simp
      · simp [ih, or_left_comm]

theorem pairwise_insertAscending {q : Nat} {l : List Nat} (h : l.Pairwise (· < ·)) :
    (insertAscending q l).Pairwise (· < ·) := by
  induction l with
  | nil => simp [insertAscending]
  | cons r rs ih =>
    obtain ⟨hr, hrs⟩ := List.pairwise_cons.1 h
    unfold insertAscending
    split
    · next hlt =>
      refine List.pairwise_cons.2 ⟨fun x hx => ?_, h⟩
      rcases List.mem_cons.1 hx with rfl | hx
      · exact hlt
      · exact Nat.lt_trans hlt (hr x hx)
    · split
      · exact h
      · refine List.pairwise_cons.2 ⟨fun x hx => ?_, ih hrs⟩
        rcases mem_insertAscending.1 hx with rfl | hx
        · omega
        · exact hr x hx

/-- Ascending lists of the same numbers are the same. -/
theorem eq_of_ascending_of_mem_iff {l m : List Nat} (hl : l.Pairwise (· < ·)) (hm : m.Pairwise (· < ·))
    (h : ∀ n, n ∈ l ↔ n ∈ m) : l = m := by
  have hperm : l.Perm m :=
    (List.perm_ext_iff_of_nodup (hl.imp Nat.ne_of_lt) (hm.imp Nat.ne_of_lt)).2 h
  exact hperm.eq_of_pairwise (fun _ _ _ _ hpq hqp => absurd hpq (Nat.lt_asymm hqp)) hl hm

/-- Whether two ascending lists have a number in common. Numbers of the second list below one of the
first are below all that follow, so they are passed once. -/
def commonAscending : List Nat → List Nat → Bool
  | [], _ => false
  | p :: ps, qs =>
    match qs.dropWhile (· < p) with
    | [] => false
    | q :: rest => p == q || commonAscending ps (q :: rest)

/-- Only numbers below a bound are passed. -/
theorem mem_dropWhile_lt {n p : Nat} {l : List Nat} (h : l.Pairwise (· < ·)) :
    n ∈ l.dropWhile (· < p) ↔ n ∈ l ∧ p ≤ n := by
  induction l with
  | nil => simp
  | cons q l ih =>
    obtain ⟨hq, hl⟩ := List.pairwise_cons.1 h
    by_cases hlt : q < p
    · simp only [List.dropWhile_cons, hlt, decide_true, ↓reduceIte, ih hl, List.mem_cons]
      constructor
      · exact fun ⟨hn, hp⟩ => ⟨Or.inr hn, hp⟩
      · rintro ⟨rfl | hn, hp⟩
        · omega
        · exact ⟨hn, hp⟩
    · simp only [List.dropWhile_cons, hlt, decide_false, Bool.false_eq_true, ↓reduceIte,
        iff_self_and, List.mem_cons]
      rintro (rfl | hn)
      · omega
      · exact Nat.le_trans (Nat.le_of_not_lt hlt) (Nat.le_of_lt (hq n hn))

theorem commonAscending_iff {l m : List Nat} (hl : l.Pairwise (· < ·)) (hm : m.Pairwise (· < ·)) :
    commonAscending l m = true ↔ ∃ n, n ∈ l ∧ n ∈ m := by
  induction l generalizing m with
  | nil => simp [commonAscending]
  | cons p ps ih =>
    obtain ⟨hp, hps⟩ := List.pairwise_cons.1 hl
    have hmem := fun n => mem_dropWhile_lt (n := n) (p := p) hm
    have hrest : (m.dropWhile (· < p)).Pairwise (· < ·) := hm.sublist (List.dropWhile_sublist _)
    rw [commonAscending]
    split
    · next heq =>
      simp only [heq, List.not_mem_nil, false_iff, not_and] at hmem
      simp only [Bool.false_eq_true, false_iff, not_exists, not_and]
      intro n hn hnm
      rcases List.mem_cons.1 hn with rfl | hn
      · exact hmem n hnm (Nat.le_refl n)
      · exact hmem n hnm (Nat.le_of_lt (hp n hn))
    · next q rest heq =>
      rw [heq] at hrest hmem
      rw [Bool.or_eq_true, ih hps hrest, beq_iff_eq]
      constructor
      · rintro (rfl | ⟨n, hn, hnm⟩)
        · exact ⟨p, by simp, ((hmem p).1 (by simp)).1⟩
        · exact ⟨n, List.mem_cons_of_mem _ hn, ((hmem n).1 hnm).1⟩
      · rintro ⟨n, hn, hnm⟩
        rcases List.mem_cons.1 hn with rfl | hn
        · rcases List.mem_cons.1 ((hmem n).2 ⟨hnm, Nat.le_refl n⟩) with h | h
          · exact Or.inl h
          · have := (List.pairwise_cons.1 hrest).1 n h
            have := ((hmem q).1 (by simp)).2
            omega
        · exact Or.inr ⟨n, hn, (hmem n).2 ⟨hnm, Nat.le_of_lt (hp n hn)⟩⟩

/-- A finite set of pointers. -/
structure Zone where
  ptrs : List Nat
  ascending : ptrs.Pairwise (· < ·)
deriving DecidableEq

namespace Zone

def bottom : Zone := ⟨[], .nil⟩

instance : Inhabited Zone := ⟨bottom⟩

instance : Membership Nat Zone := ⟨fun z p => p ∈ z.ptrs⟩

instance (p : Nat) (z : Zone) : Decidable (p ∈ z) := inferInstanceAs (Decidable (p ∈ z.ptrs))

def insert (p : Nat) (z : Zone) : Zone :=
  ⟨insertAscending p z.ptrs, pairwise_insertAscending z.ascending⟩

def ofList (ps : List Nat) : Zone := ps.foldr insert bottom

def isBottom (z : Zone) : Bool := z.ptrs.isEmpty

/-- All pointers of two zones. -/
def join (a b : Zone) : Zone := a.ptrs.foldr insert b

/-- The pointers for which a test holds. -/
def filter (test : Nat → Bool) (z : Zone) : Zone := ⟨z.ptrs.filter test, z.ascending.filter test⟩

/-- The common pointers of two zones. -/
def meet (a b : Zone) : Zone := a.filter (· ∈ b)

/-- Whether two zones have a common pointer. -/
def overlaps (a b : Zone) : Bool := commonAscending a.ptrs b.ptrs

/-- Zones are ordered like their ascending lists. -/
instance : Ord Zone := ⟨fun a b => compare a.ptrs b.ptrs⟩

/-- Puts a zone in its place among sorted ones. -/
def insertSorted (z : Zone) : List Zone → List Zone
  | [] => [z]
  | y :: ys => if (compare z y).isLE then z :: y :: ys else y :: insertSorted z ys

def sort (zs : List Zone) : List Zone := zs.foldr insertSorted []

/-- A pointer in hexadecimal. -/
def ptrText (p : Nat) : String := "0x" ++ String.ofList (Nat.toDigits 16 p)

def text (z : Zone) : String :=
  if z.isBottom then "bottom"
  else "\x7b" ++ ", ".intercalate (z.ptrs.map ptrText) ++ "\x7d"

/-! ### Members -/

theorem mem_ptrs {p : Nat} {z : Zone} : p ∈ z.ptrs ↔ p ∈ z := Iff.rfl

/-- **Zones that have the same pointers are the same.** -/
theorem eq_of_mem_iff {a b : Zone} (h : ∀ p, p ∈ a ↔ p ∈ b) : a = b := by
  have hptrs : a.ptrs = b.ptrs := eq_of_ascending_of_mem_iff a.ascending b.ascending h
  cases a
  cases b
  cases hptrs
  rfl

@[simp] theorem mem_insert {p q : Nat} {z : Zone} : p ∈ z.insert q ↔ p = q ∨ p ∈ z :=
  mem_insertAscending

@[simp] theorem mem_ofList {p : Nat} {ps : List Nat} : p ∈ ofList ps ↔ p ∈ ps := by
  induction ps with
  | nil => exact Iff.rfl
  | cons q ps ih =>
    show p ∈ (ofList ps).insert q ↔ _
    simp [ih]

@[simp] theorem mem_join {p : Nat} {a b : Zone} : p ∈ a.join b ↔ p ∈ a ∨ p ∈ b := by
  obtain ⟨l, h⟩ := a
  show p ∈ List.foldr insert b l ↔ p ∈ l ∨ p ∈ b
  clear h
  induction l with
  | nil => simp
  | cons q l ih => simp [ih, or_assoc]

@[simp] theorem mem_meet {p : Nat} {a b : Zone} : p ∈ a.meet b ↔ p ∈ a ∧ p ∈ b := by
  show p ∈ a.ptrs.filter _ ↔ _
  simp [mem_ptrs]

theorem mem_insertSorted {y z : Zone} {zs : List Zone} : y ∈ insertSorted z zs ↔ y = z ∨ y ∈ zs := by
  induction zs with
  | nil => simp [insertSorted]
  | cons x zs ih =>
    unfold insertSorted
    split
    · simp
    · simp [ih, or_left_comm]

theorem mem_sort {z : Zone} {zs : List Zone} : z ∈ sort zs ↔ z ∈ zs := by
  induction zs with
  | nil => exact Iff.rfl
  | cons y zs ih =>
    show z ∈ insertSorted y (sort zs) ↔ _
    rw [mem_insertSorted, ih, List.mem_cons]

theorem overlaps_iff {a b : Zone} : a.overlaps b = true ↔ ∃ p, p ∈ a ∧ p ∈ b :=
  commonAscending_iff a.ascending b.ascending

end Zone

/-- Where an access goes. -/
structure Address where
  zone : Zone
  /-- Whether another thread may see the access. -/
  shared : Bool

namespace Address

def ofPtr (p : Nat) (shared : Bool) : Address := ⟨Zone.bottom.insert p, shared⟩

/-- Either address; shared if one of them is. -/
def join (a b : Address) : Address := ⟨a.zone.join b.zone, a.shared || b.shared⟩

/-- Addresses are the same if they have the same pointers. -/
def same (a b : Address) : Bool := a.zone = b.zone

end Address

end Symex.Memory
