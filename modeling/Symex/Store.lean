import Symex.Tracked

/-!
The store of program variables. A variable is reached by a handle, an index with a type; its version
grows with every assignment. Writing back a value that was read from the same variable at its current
version changes nothing.
-/

namespace Symex

/-- A handle to a variable. -/
structure Var where
  index : Nat
  ty : Ty
deriving DecidableEq, Repr, Inhabited

def Var.text (x : Var) : String := "var#" ++ toString x.index

/-- The variables of a program, in the order they were declared. -/
structure Store where
  slots : List Slot := []
deriving DecidableEq, Inhabited

namespace Store

def size (st : Store) : Nat := st.slots.length

/-- Declares a variable with a first value, at version zero. -/
def declare (st : Store) (v : Tracked) : Var × Store :=
  (⟨st.size, v.ty⟩, ⟨st.slots ++ [{ v.toSlot with version := 0 }]⟩)

def slot (st : Store) (index : Nat) : Except Error Slot :=
  match st.slots[index]? with
  | some s => .ok s
  | none => .error (.unknownVariable index)

/-- Replaces the state of a variable that the store holds. -/
def put (st : Store) (index : Nat) (s : Slot) : Store := ⟨st.slots.set index s⟩

/-- Replaces the state of a variable, if the store holds it. -/
def replace (st : Store) (index : Nat) (s : Slot) : Except Error Store :=
  if index < st.size then .ok (st.put index s) else .error (.unknownVariable index)

/-- The value of a variable, at the type of the handle. -/
def get (st : Store) (x : Var) : Except Error Tracked := do
  let s ← st.slot x.index
  return { s with data := s.data.convert x.ty, origin := some ⟨x.index, s.version⟩ }

def version (st : Store) (x : Var) : Except Error Nat := do return (← st.slot x.index).version

/-- Assigns a value. -/
def set (st : Store) (x : Var) (v : Tracked) : Build Store := do
  let current ← st.get x
  if v.origin = some ⟨x.index, current.version⟩ then
    return st
  else
    let next ← current.assign v
    return st.put x.index next.toSlot

/-- The states of some variables. -/
def slotsOf (st : Store) (vars : List Nat) : Except Error (List Slot) := vars.mapM st.slot

/-! ### Reading what was put -/

@[simp] theorem size_put (st : Store) (index : Nat) (s : Slot) : (st.put index s).size = st.size := by
  simp [put, size]

theorem slot_put_self {st : Store} {index : Nat} (h : index < st.size) (s : Slot) :
    (st.put index s).slot index = .ok s := by
  have h : index < st.slots.length := h
  simp [slot, put, h]

theorem slot_put_of_ne {st : Store} {i index : Nat} (h : index ≠ i) (s : Slot) :
    (st.put index s).slot i = st.slot i := by
  simp [slot, put, h]

/-- Reading a slot is reading the list of slots. -/
theorem slot_eq_ok_iff {st : Store} {index : Nat} {s : Slot} :
    st.slot index = .ok s ↔ st.slots[index]? = some s := by
  unfold slot
  split <;> simp_all

end Store

end Symex
