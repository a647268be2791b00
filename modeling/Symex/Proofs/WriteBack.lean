import Symex.Proofs.Agreement

/-!
Writing to variables. A variable takes the data and the companion of the value that is written, at its
own type, and no other variable changes. A value that was read from the variable at its current version
is taken for what the variable holds and not written. It keeps this mark when it is assigned to or given
a leaf, and stores do not matter for it, so that such a value can be another one by now: then the update
is lost, and these are the only updates that are.
-/

namespace Symex

/-- The companion that a value has at a type: none if it has none, its own if it is of that type, and
else a cast of its own. -/
inductive Tracked.Carries (v : Tracked) (ty : Ty) : Option Expr → Prop
  | none (h : v.companion = none) : Carries v ty none
  | same {e : Expr} (hty : v.ty = ty) (h : v.companion = some e) : Carries v ty (some e)
  | cast {n : Nat} {e : Expr} (hty : v.ty ≠ ty) (h : v.companion = some e) :
      Carries v ty (some (.cast n ty e))

theorem Tracked.Carries.isSome_eq {v : Tracked} {ty : Ty} {c : Option Expr} (h : v.Carries ty c) :
    c.isSome = v.companion.isSome := by
  cases h with
  | none h => rw [h]
  | same hty h => rw [h]
  | cast hty h => rw [h]; rfl

/-- Data and companion are those of a value at a type. -/
structure Dual.Holds (d : Dual) (v : Tracked) (ty : Ty) : Prop where
  data_eq : d.data = v.data.convert ty
  carries : v.Carries ty d.companion

namespace Tracked

theorem cast_holds (v : Tracked) (ty : Ty) : (v.cast ty).Makes (·.toDual.Holds v ty) := by
  unfold cast
  split
  · next hty =>
    refine .pure ⟨(Scalar.convert_of_ty hty).symm, ?_⟩
    cases hc : v.companion with
    | none => exact .none hc
    | some e => exact .same hty hc
  · next hty =>
    cases hc : v.companion with
    | none => exact .pure ⟨rfl, .none hc⟩
    | some e => exact fun _ => ⟨rfl, .cast hty hc⟩

theorem assign_holds (v w : Tracked) : (v.assign w).Makes (·.toDual.Holds w v.ty) :=
  .bind (cast_holds w v.ty) fun _ hc => .pure hc

end Tracked

namespace Store

/-- A store in which a variable has taken a value and no other has changed. -/
structure Updated (st : Store) (x : Var) (v : Tracked) (st' : Store) : Prop where
  read : ∃ w, st'.get x = .ok w ∧ w.toDual.Holds v x.ty
  frame : ∀ i, i ≠ x.index → st'.slot i = st.slot i

variable {st : Store} {x : Var} {s : Slot}

theorem lt_size_of_slot {i : Nat} (hs : st.slot i = .ok s) : i < st.size :=
  (List.getElem?_eq_some_iff.1 (slot_eq_ok_iff.1 hs)).1

/-- What a handle of its type reads of a state is what is there. -/
theorem toDual_readBy (hty : s.data.ty = x.ty) : (s.readBy x).toDual = s.toDual := by
  show Dual.mk (s.data.convert x.ty) s.companion = _
  rw [Scalar.convert_of_ty hty]

/-- A store as it is has taken just the values that the variable holds. -/
theorem updated_self_iff (hs : st.slot x.index = .ok s) (hty : s.data.ty = x.ty) (v : Tracked) :
    st.Updated x v st ↔ s.toDual.Holds v x.ty := by
  have hget := get_of_slot hs
  constructor
  · rintro ⟨⟨w, hw, hholds⟩, -⟩
    obtain rfl := Except.ok.inj (hget.symm.trans hw)
    rwa [toDual_readBy hty] at hholds
  · intro hholds
    refine ⟨⟨_, hget, ?_⟩, fun _ _ => rfl⟩
    rwa [toDual_readBy hty]

theorem updated_put (hs : st.slot x.index = .ok s) {v w : Tracked} (hw : w.toDual.Holds v x.ty) :
    st.Updated x v (st.put x.index w.toSlot) := by
  have hput : (st.put x.index w.toSlot).slot x.index = .ok w.toSlot :=
    slot_put_self (lt_size_of_slot hs) _
  have hty : w.data.ty = x.ty := by
    rw [hw.data_eq]
    exact Scalar.ty_convert _ _
  refine ⟨⟨_, get_of_slot hput, ?_⟩, fun i hi => slot_put_of_ne hi.symm _⟩
  rwa [toDual_readBy hty]

/-- **An update is lost just if the value carries the mark of a read at the current version and is not
what the variable holds.** Every other update is made. -/
theorem set_updates_iff (st : Store) (x : Var) (s : Slot) (hs : st.slot x.index = .ok s)
    (hty : s.data.ty = x.ty) (v : Tracked) (n : Nat) :
    ∃ st' n', st.set x v n = .ok (st', n') ∧
      (st.Updated x v st' ↔
        (v.origin = some ⟨x.index, s.version⟩ → s.toDual.Holds v x.ty)) := by
  rw [set_eq hs]
  by_cases ho : v.origin = some ⟨x.index, s.version⟩
  · rw [if_pos ho]
    refine ⟨st, n, rfl, ?_⟩
    rw [updated_self_iff hs hty]
    exact ⟨fun h _ => h, fun h => h ho⟩
  · rw [if_neg ho]
    refine ⟨_, _, rfl, fun _ h => absurd h ho, fun _ => updated_put hs ?_⟩
    have hholds := Tracked.assign_holds (s.readBy x) v n
    rwa [show (s.readBy x).ty = x.ty from Scalar.ty_convert _ _] at hholds

/-- A store with one variable. -/
def single (data : Scalar) : Store := (({} : Store).declare (.new data)).2

/-- A free value is written over a number. -/
theorem single_takes_free :
    ∃ st' n', (single (.int 1)).set ⟨0, .int⟩ ((Tracked.any "A" .char 0).1) 1 = .ok (st', n') ∧
      (single (.int 1)).Updated ⟨0, .int⟩ ((Tracked.any "A" .char 0).1) st' := by
  obtain ⟨st', n', hset, hiff⟩ :=
    set_updates_iff (single (.int 1)) ⟨0, .int⟩ ⟨⟨.int 1, none⟩, true, 0⟩ rfl rfl
      (Tracked.any "A" .char 0).1 1
  exact ⟨st', n', hset, hiff.2 fun h => nomatch h⟩

/-- Values that were read from a variable and are others by now: assigned to, given a leaf, or read
from another store. -/
def changedReads : List Tracked :=
  let v := Slot.readBy ⟨⟨.int 1, none⟩, true, 0⟩ ⟨0, .int⟩
  [(v.assign (.new (.int 5)) 0).1, (v.symbolize "N" 0).1,
    Slot.readBy ⟨⟨.int 2, none⟩, true, 0⟩ ⟨0, .int⟩]

theorem changedReads_lost :
    (single (.int 1)).get ⟨0, .int⟩ = .ok (Slot.readBy ⟨⟨.int 1, none⟩, true, 0⟩ ⟨0, .int⟩) ∧
      (single (.int 2)).get ⟨0, .int⟩ = .ok (Slot.readBy ⟨⟨.int 2, none⟩, true, 0⟩ ⟨0, .int⟩) ∧
      ∀ v ∈ changedReads, ∃ st' n', (single (.int 1)).set ⟨0, .int⟩ v 1 = .ok (st', n') ∧
        ¬ (single (.int 1)).Updated ⟨0, .int⟩ v st' := by
  refine ⟨rfl, rfl, fun v hv => ?_⟩
  have hs : (single (.int 1)).slot 0 = .ok ⟨⟨.int 1, none⟩, true, 0⟩ := rfl
  have hmark : ∀ v ∈ changedReads, v.origin = some ⟨0, 0⟩ := by decide
  have hother : ∀ v ∈ changedReads, .int 1 ≠ v.data.convert .int ∨ v.companion.isSome = true := by
    decide
  refine ⟨single (.int 1), 1, ?_, fun h => ?_⟩
  · rw [set_eq (x := ⟨0, .int⟩) hs, if_pos (hmark v hv)]
  · have hholds := (updated_self_iff (x := ⟨0, .int⟩) hs rfl v).1 h
    rcases hother v hv with hdata | hsome
    · exact hdata hholds.data_eq
    · rw [← hholds.carries.isSome_eq] at hsome
      cases hsome

end Store

end Symex
