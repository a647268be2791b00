import Symex.Proofs.Meaning

/-!
Encoding an instruction hands out symbols on the way, but which have been handed out before makes no
difference to its term. So what is known of terms is known of encodings: one that succeeds evaluates to the
value of the instruction, in every model that gives the accesses well-sorted values.
-/

namespace Symex.Memory

open Smt (Term TermSort Value Model)

mutual
/-- Whatever symbols have been handed out, encoding an instruction gives its term. -/
theorem Instr.encode_fst (i : Instr) (s : Symbols) : (i.encode.run.run s).1 = i.term := by
  match i with
  | .lit v => rfl
  | .seen a => rfl
  | .unary op i => exact run_bind_fst i.encode_fst (fun _ _ => rfl) s
  | .binary op l r =>
    exact run_bind_fst l.encode_fst (fun _ => run_bind_fst r.encode_fst fun _ _ => rfl) s
  | .nary op ty is =>
    unfold encode term
    split
    · rfl
    · exact run_bind_fst (encodeAll_fst is) (fun _ _ => rfl) s
  | .deref m o =>
    exact run_bind_fst m.encode_fst (fun x => run_bind_fst o.encode_fst fun y =>
      run_bind_fst (r := indexTerm y) (fun _ => rfl) fun k _ => rfl) s
theorem Instr.encodeAll_fst (is : List Instr) (s : Symbols) :
    ((Instr.encodeAll is).run.run s).1 = Instr.termAll is := by
  match is with
  | [] => rfl
  | i :: is => exact run_bind_fst i.encode_fst (fun _ => run_bind_fst (encodeAll_fst is) fun _ _ => rfl) s
end

/-- **Instructions are encoded correctly.** If accesses see values of their sorts and a model has these, then
an instruction that is encoded evaluates to its value, which is of the sort of the term. -/
theorem Instr.encode_evaluates {i : Instr} {s : Symbols} {t : Term} (ht : (i.encode.run.run s).1 = .ok t)
    {m : Model} {ρ : Nat → Value}
    (h : ∀ a ∈ i.accesses, m.get? (valueName a.id) = some (ρ a.id) ∧ (ρ a.id).HasSort a.sort) :
    m.eval t = .ok (i.value ρ) ∧ ∃ sort, t.sort = .ok sort ∧ (i.value ρ).HasSort sort := by
  rw [i.encode_fst s] at ht
  have hgives := i.term_gives ht h
  obtain ⟨sort, hsort, -, hvalue⟩ := hgives.typed
  exact ⟨hgives.eval_eq, sort, hsort, hvalue⟩

/-- A read of an array of `short`. -/
def cellsRead : Access := ⟨1, .read, .array .short, .ofPtr 1 true⟩

/-- A read of an offset into it. -/
def offsetRead : Access := ⟨2, .read, .scalar .char, .ofPtr 2 true⟩

/-- That the element one before the offset is negative. -/
def negativeBefore : Instr :=
  .binary .lt (.deref (.seen cellsRead) (.binary .add (.seen offsetRead) (.lit (.char (-1)))))
    (.lit (.short 0))

/-- Only the last element of the array is negative, and the offset is that of the first. -/
def wrappedCells (id : Nat) : Value :=
  if id = 1 then .array (.bitVec 7 16) [(4294967295, .bitVec 65531 16)] else .bitVec 0 8

def wrappedCellsModel : Model :=
  { consts := .ofList [(valueName 1, wrappedCells 1), (valueName 2, wrappedCells 2)] }

theorem negativeBefore_evaluates : ∃ t, (negativeBefore.encode.run.run (.ofConfig {})).1 = .ok t ∧
    wrappedCellsModel.eval t = .ok (.bool true) := by
  have hget : wrappedCellsModel.get? (valueName 1) = some (wrappedCells 1) ∧
      wrappedCellsModel.get? (valueName 2) = some (wrappedCells 2) := by decide +kernel
  have hcells : (wrappedCells 1).HasSort cellsRead.sort := by
    refine .array (.bitVec (by decide)) ?_ ?_
    · simpa using by decide
    · simpa using .bitVec (by decide)
  have hoffset : (wrappedCells 2).HasSort offsetRead.sort := .bitVec (by decide)
  have hread : ∀ a ∈ negativeBefore.accesses, wrappedCellsModel.get? (valueName a.id) =
      some (wrappedCells a.id) ∧ (wrappedCells a.id).HasSort a.sort :=
    List.forall_mem_cons.2 ⟨⟨hget.1, hcells⟩, List.forall_mem_cons.2 ⟨⟨hget.2, hoffset⟩, nofun⟩⟩
  obtain ⟨t, ht⟩ : ∃ t, (negativeBefore.encode.run.run (.ofConfig {})).1 = .ok t := ⟨_, rfl⟩
  -- the offset wraps to the last index, and the element there is below zero
  have hvalue : negativeBefore.value wrappedCells = .bool true := by decide +kernel
  rw [← hvalue]
  exact ⟨t, ht, (Instr.encode_evaluates ht hread).1⟩

end Symex.Memory
