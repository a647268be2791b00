import Std.Data.TreeSet.Lemmas

/-!
Lists without repetitions. `firstUses` keeps the first of all elements with the same key; keys that
have been seen are looked up in a tree. `firstUses_cons` says what it does without one.
-/

namespace Symex.Memory

variable {α κ : Type} [Ord κ]

/-- The elements whose key has not been seen, the first one for every key. -/
def unseenUses (key : α → κ) : List α → Std.TreeSet κ → List α
  | [], _ => []
  | a :: rest, seen =>
    if seen.contains (key a) then unseenUses key rest seen
    else a :: unseenUses key rest (seen.insert (key a))

/-- The elements of a list without those whose key came before. -/
def firstUses (key : α → κ) (l : List α) : List α := unseenUses key l ∅

@[simp] theorem firstUses_nil (key : α → κ) : firstUses key [] = [] := rfl

variable [Std.TransOrd κ] [Std.LawfulEqOrd κ]

theorem mem_insert_seen {j k : κ} {seen : Std.TreeSet κ} :
    j ∈ seen.insert k ↔ j = k ∨ j ∈ seen := by
  rw [Std.TreeSet.mem_insert, Std.compare_eq_iff_eq, eq_comm]

variable [DecidableEq κ]

/-- If keys seen only take elements away, the first element is kept and no later one has its key. -/
theorem firstUses_cons_of_filter (key : α → κ) (a : α) (l : List α)
    (h : ∀ seen, unseenUses key l seen = (firstUses key l).filter (key · ∉ seen)) :
    firstUses key (a :: l) = a :: (firstUses key l).filter (key · ≠ key a) := by
  show unseenUses key (a :: l) ∅ = _
  rw [unseenUses, if_neg (by simp), h]
  simp only [mem_insert_seen, Std.TreeSet.not_mem_emptyc, or_false, ne_eq]

/-- Keys seen before only take elements away. -/
theorem unseenUses_eq_filter (key : α → κ) (l : List α) (seen : Std.TreeSet κ) :
    unseenUses key l seen = (firstUses key l).filter (key · ∉ seen) := by
  induction l generalizing seen with
  | nil => rfl
  | cons a l ih =>
    rw [firstUses_cons_of_filter key a l ih, unseenUses]
    by_cases hs : key a ∈ seen
    · rw [if_pos (Std.TreeSet.contains_iff_mem.2 hs), ih, List.filter_cons_of_neg (by simp [hs]),
        List.filter_filter]
      refine List.filter_congr fun b _ => ?_
      by_cases hb : key b = key a <;> simp [hb, hs]
    · rw [if_neg (by simp [hs]), ih, List.filter_cons_of_pos (by simp [hs]), List.filter_filter]
      refine congrArg (a :: ·) (List.filter_congr fun b _ => ?_)
      by_cases hb : key b = key a <;> simp [-Std.TreeSet.mem_insert, mem_insert_seen, hb]

/-- The first element is kept, and no later one has its key. -/
theorem firstUses_cons (key : α → κ) (a : α) (l : List α) :
    firstUses key (a :: l) = a :: (firstUses key l).filter (key · ≠ key a) :=
  firstUses_cons_of_filter key a l (unseenUses_eq_filter key l)

end Symex.Memory
