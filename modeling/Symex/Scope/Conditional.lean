import Symex.Store

/-!
Conditionals: the tracked variables are noted on entry, put back between the arms, and joined at the
end. A variable that no arm has changed keeps its state. The phases follow one another strictly. Every
call answers with the scope, and with the store it was given, as they are when it succeeds or fails.
-/

namespace Symex

/-- A conditional scope. -/
structure Conditional where
  guard : Tracked
  vars : List Nat := []
  /-- States on entry, one for each variable. -/
  entry : List Slot := []
  /-- States at the end of the first arm. -/
  thenArm : List Slot := []
  phase : Conditional.Phase := .entry

/-- The state after two arms. A concrete guard selects its arm, and equal arms need no choice; else
the companion chooses by the guard. Data and concreteness are those of the arm the guard takes. -/
def joinArms (guard : Tracked) (guardExpr : Expr) (yes no : Slot) (version : Nat) : Mint Slot :=
  let taken := if guard.isTrue then yes else no
  if guard.concrete || yes.same no.toDual then
    return { taken with version }
  else do
    let y ← yes.toExpr
    let n ← no.toExpr
    let e ← Mint.ite guardExpr y n
    return { taken with companion := some e, version }

namespace Conditional

/-- Adds a variable to the tracked ones, once. -/
def track (c : Conditional) (x : Var) : Except Error Unit × Conditional :=
  if c.phase = .entry then
    (.ok (), if x.index ∈ c.vars then c else { c with vars := c.vars ++ [x.index] })
  else
    (.error (.misplacedCall .track c.phase), c)

/-- A new scope that tracks some variables. -/
def tracking (guard : Tracked) (vars : List Var) : Except Error Conditional :=
  vars.foldlM (fun c x => (c.track x).1.map fun _ => (c.track x).2) { guard }

/-- Enters the first arm; answers whether it can be taken. -/
def beginThen (c : Conditional) (st : Store) : Except Error Bool × Conditional :=
  if c.phase = .entry then
    match st.slotsOf c.vars with
    | .error e => (.error e, c)
    | .ok entry => (.ok (!c.guard.concrete || c.guard.isTrue), { c with entry, phase := .inThen })
  else
    (.error (.misplacedCall .beginThen c.phase), c)

/-- Puts back the entry state of each variable that the first arm has changed; stops at one that the
store does not hold. -/
def restore (st : Store) : List (Nat × Slot × Slot) → Except Error Unit × Store
  | [] => (.ok (), st)
  | (index, before, after) :: rest =>
    if after.version = before.version then restore st rest
    else
      match st.replace index { before with version := after.version + 1 } with
      | .error e => (.error e, st)
      | .ok st => restore st rest

/-- Enters the second arm; answers whether it can be taken. The end of the first arm is noted before
anything is put back, and the phase changes last. -/
def beginElse (c : Conditional) (st : Store) : Except Error Bool × Conditional × Store :=
  if c.phase = .inThen then
    match st.slotsOf c.vars with
    | .error e => (.error e, c, st)
    | .ok thenArm =>
      let c := { c with thenArm }
      match restore st (c.vars.zip (c.entry.zip thenArm)) with
      | (.error e, st) => (.error e, c, st)
      | (.ok (), st) =>
        (.ok (!c.guard.concrete || !c.guard.isTrue), { c with phase := .inElse }, st)
  else
    (.error (.misplacedCall .beginElse c.phase), c, st)

/-- Joins each variable that an arm has changed, one version after both; stops at one that the store
does not hold. -/
def joinAll (guard : Tracked) (guardExpr : Expr) (st : Store) :
    List (Nat × Slot × Slot × Slot) → Mint (Except Error Unit × Store)
  | [] => return (.ok (), st)
  | (index, before, yes, no) :: rest =>
    if yes.version = before.version ∧ no.version = before.version then
      joinAll guard guardExpr st rest
    else do
      let s ← joinArms guard guardExpr yes no (max yes.version no.version + 1)
      match st.replace index s with
      | .error e => return (.error e, st)
      | .ok st => joinAll guard guardExpr st rest

/-- States at the ends of both arms; without a second arm its end is the entry. -/
def arms (c : Conditional) (st : Store) : Except Error (List Slot × List Slot) :=
  match c.phase with
  | .inThen => do return (← st.slotsOf c.vars, c.entry)
  | .inElse => do return (c.thenArm, ← st.slotsOf c.vars)
  | .entry | .ended => .error (.misplacedCall .finish c.phase)

/-- Leaves the scope and joins its arms. The scope has ended before anything is joined. -/
def finish (c : Conditional) (st : Store) : Mint (Except Error Unit × Conditional × Store) :=
  match c.arms st with
  | .error e => return (.error e, c, st)
  | .ok (yes, no) => do
    let c := { c with thenArm := yes, phase := .ended }
    let guardExpr ← c.guard.toExpr
    let (joined, st) ← joinAll c.guard guardExpr st (c.vars.zip (c.entry.zip (yes.zip no)))
    return (joined, c, st)

/-- The expressions a scope holds. -/
def held (c : Conditional) : List Expr :=
  c.guard.companion.toList ++ (c.entry ++ c.thenArm).filterMap (·.companion)

end Conditional

end Symex
