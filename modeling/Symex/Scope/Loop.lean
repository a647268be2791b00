import Symex.Config
import Symex.Store

/-!
Loops, unwound while their guard may hold and a policy allows it. Every iteration notes its guard and
the states before it; the call that ends the unwinding folds them from the last to the first.
-/

namespace Symex

/-- Decides whether a loop is unwound once more. -/
inductive Policy where
  /-- So many times. -/
  | bounded (left : Nat)
  /-- As listed, then no more. -/
  | listed (answers : List Bool)
  /-- As long as the guard's data are true. -/
  | guardData

namespace Policy

/-- The answer for a guard, and the policy for the next one. -/
def ask (p : Policy) (guard : Tracked) : Bool × Policy :=
  match p with
  | .bounded 0 => (false, .bounded 0)
  | .bounded (n + 1) => (true, .bounded n)
  | .listed [] => (false, .listed [])
  | .listed (b :: bs) => (b, .listed bs)
  | .guardData => (guard.isTrue, .guardData)

/-- The answers to a number of questions. -/
def askTimes (p : Policy) (guard : Tracked) : Nat → List Bool
  | 0 => []
  | n + 1 =>
    let (b, q) := p.ask guard
    b :: q.askTimes guard n

end Policy

/-- What a loop notes before it runs its body. -/
structure Iteration where
  guard : Tracked
  entry : List Slot

/-- A loop scope. -/
structure Loop where
  policy : Policy
  vars : List Nat := []
  iterations : List Iteration := []
  phase : Loop.Phase := .entry

namespace Loop

def ofConfig (c : Config) : Loop := { policy := .bounded c.unwindBound }

/-- Adds a variable to the tracked ones, once. -/
def track (l : Loop) (x : Var) : Except Error Unit × Loop :=
  if l.phase = .entry then
    (.ok (), if x.index ∈ l.vars then l else { l with vars := l.vars ++ [x.index] })
  else
    (.error (.lateTrack l.phase), l)

/-- A new scope with a bound that tracks some variables. -/
def tracking (bound : Nat) (vars : List Var) : Except Error Loop :=
  vars.foldlM (fun l x => (l.track x).1.map fun _ => (l.track x).2) { policy := .bounded bound }

/-- The state after the iterations of which the guards and earlier states are given, first ones
first. An iteration changes nothing if its guard is concrete or the later state is the earlier one. -/
def foldIterations (current : Slot) : List (Tracked × Slot) → Mint Slot
  | [] => return current
  | (guard, before) :: rest => do
    let after ← foldIterations current rest
    if guard.concrete || after.same before.toDual then
      return after
    else
      let g ← guard.toExpr
      let y ← after.toExpr
      let n ← before.toExpr
      let e ← Mint.ite g y n
      let taken := if guard.isTrue then after else before
      return { taken with companion := some e, version := after.version }

/-- Guards and earlier states of the tracked variable at a position. -/
def column (its : List Iteration) (position : Nat) : List (Tracked × Slot) :=
  its.filterMap fun it => it.entry[position]?.map (it.guard, ·)

/-- Joins the variables from a position on; stops at one that the store does not hold. -/
def joinFrom (its : List Iteration) (st : Store) (position : Nat) :
    List Nat → Mint (Except Error Unit × Store)
  | [] => return (.ok (), st)
  | index :: rest =>
    match st.slot index with
    | .error e => return (.error e, st)
    | .ok current => do
      let states := column its position
      if states.head?.any (·.2.version == current.version) then
        joinFrom its st (position + 1) rest
      else
        let s ← foldIterations current states
        joinFrom its (st.put index { s with version := current.version + 1 }) (position + 1) rest

/-- Joins all tracked variables; a loop without iterations has nothing to join. -/
def join (l : Loop) (st : Store) : Mint (Except Error Unit × Store) :=
  if l.iterations.isEmpty then return (.ok (), st) else joinFrom l.iterations st 0 l.vars

/-- Answers whether the body runs once more. The loop and the store change also if a variable is
unknown: the policy has been asked, and variables before the unknown one have been joined. -/
def unwind (l : Loop) (st : Store) (guard : Tracked) :
    Mint (Except Error Bool × Loop × Store) :=
  if l.phase = .ended then return (.ok false, l, st)
  else
    let l := { l with phase := .unwinding }
    let (more, policy) :=
      if !guard.concrete || guard.isTrue then l.policy.ask guard else (false, l.policy)
    let l := { l with policy }
    if more then
      match st.slotsOf l.vars with
      | .error e => return (.error e, l, st)
      | .ok entry => return (.ok true, { l with iterations := l.iterations ++ [⟨guard, entry⟩] }, st)
    else do
      match ← l.join st with
      | (.error e, st) => return (.error e, l, st)
      | (.ok (), st) => return (.ok false, { l with phase := .ended }, st)

/-- The expressions a scope holds. -/
def held (l : Loop) : List Expr :=
  l.iterations.flatMap fun it =>
    it.guard.companion.toList ++ it.entry.filterMap (·.companion)

end Loop

end Symex
