import Symex.Proofs.Native
import Symex.Scope.Conditional
import Symex.Scope.Loop

/-!
Structured programs over the variables of a store, with two readings. `exec` is ordinary execution: a
conditional runs the arm its guard selects, and a loop runs its body while its guard holds, at most as
often as its bound. `run` drives the scopes of the engine: both arms and every round run one after
another on one store, and the scopes join what they leave behind.

Which operands hold their companions alone is left open. `run` asks an oracle, at a new stamp for
every application, so that every sequence of answers is the run of some oracle.
-/

namespace Symex

/-! ### Formulas -/

/-- A value built from literals, free variables and the variables of a program. -/
inductive Formula where
  | new (data : Scalar)
  | any (name : String) (ty : Ty)
  | get (x : Var)
  | add (l r : Formula)
  | lt (l r : Formula)
  | equals (l r : Formula)
  | and (l r : Formula)
  | or (l r : Formula)
  | not (v : Formula)
  | cast (ty : Ty) (v : Formula)

namespace Formula

def ty : Formula → Ty
  | .new data => data.ty
  | .any _ ty => ty
  | .get x => x.ty
  | .add _ _ => .int
  | .lt _ _ | .equals _ _ | .and _ _ | .or _ _ | .not _ => .bool
  | .cast ty _ => ty

/-- Whether variables are declared at the types of their handles, and connectives are over `bool`. -/
def fits (Γ : List Ty) : Formula → Bool
  | .new _ | .any _ _ => true
  | .get x => Γ[x.index]? = some x.ty
  | .add l r | .lt l r | .equals l r => l.fits Γ && r.fits Γ
  | .and l r | .or l r => (l.fits Γ && l.ty = .bool) && (r.fits Γ && r.ty = .bool)
  | .not v => v.fits Γ && v.ty = .bool
  | .cast _ v => v.fits Γ

/-- The scalar of a formula when the variables have values. -/
def value (env : Env) (σ : List Scalar) : Formula → Scalar
  | .new data => data
  | .any name ty => env.value name ty
  | .get x => σ.getD x.index default
  | .add l r => .int ((l.value env σ).promoted + (r.value env σ).promoted)
  | .lt l r => .bool ((l.value env σ).promoted.slt (r.value env σ).promoted)
  | .equals l r => .bool ((l.value env σ).promoted == (r.value env σ).promoted)
  | .and l r => .bool ((l.value env σ).isTrue && (r.value env σ).isTrue)
  | .or l r => .bool ((l.value env σ).isTrue || (r.value env σ).isTrue)
  | .not v => .bool !(v.value env σ).isTrue
  | .cast ty v => (v.value env σ).convert ty

/-- The tracked value of a formula, operands from left to right. -/
def build (own : Nat → Ownership) (st : Store) : Formula → Build Tracked
  | .new data => return .new data
  | .any name ty => Tracked.any name ty
  | .get x => st.get x
  | .add l r => do
    let l ← l.build own st
    let r ← r.build own st
    l.add r (own (← MonadState.get))
  | .lt l r => do
    let l ← l.build own st
    let r ← r.build own st
    l.lt r (own (← MonadState.get))
  | .equals l r => do
    let l ← l.build own st
    let r ← r.build own st
    l.equals r (own (← MonadState.get))
  | .and l r => do
    let l ← l.build own st
    let r ← r.build own st
    l.and r (own (← MonadState.get))
  | .or l r => do
    let l ← l.build own st
    let r ← r.build own st
    l.or r (own (← MonadState.get))
  | .not v => do (← v.build own st).not
  | .cast ty v => do (← v.build own st).cast ty

end Formula

/-! ### Statements -/

/-- A statement. A scope lists the variables it tracks. -/
inductive Stmt where
  | skip
  | assign (x : Var) (v : Formula)
  | seq (first second : Stmt)
  | ifThen (guard : Formula) (track : List Var) (yes : Stmt)
  | ifElse (guard : Formula) (track : List Var) (yes no : Stmt)
  | loop (bound : Nat) (guard : Formula) (track : List Var) (body : Stmt)

/-- Runs a body while a guard holds, but only so many times. -/
def whileAtMost {σ : Type} (guard : σ → Bool) (body : σ → σ) : Nat → σ → σ
  | 0, s => s
  | n + 1, s => if guard s then whileAtMost guard body n (body s) else s

/-- Asks a loop for another round so many times, as long as it wants one, and runs the body after
each positive answer. Gives the guards that the loop was asked with. -/
def Loop.rounds (guard : Store → Build Tracked) (body : Store → Build (Store × List Tracked)) :
    Nat → Loop → Store → Build (Store × List Tracked)
  | 0, _, st => return (st, [])
  | n + 1, l, st => do
    let g ← guard st
    let (more, l, st) ← l.unwind st g
    if ← more then
      let (st, inner) ← body st
      let (st, later) ← rounds guard body n l st
      return (st, g :: (inner ++ later))
    else
      return (st, [g])

namespace Stmt

/-- Whether all formulas fit, guards are of type `bool`, and every handle is declared. -/
def fits (Γ : List Ty) : Stmt → Bool
  | .skip => true
  | .assign x v => Γ[x.index]? = some x.ty && v.fits Γ
  | .seq a b => a.fits Γ && b.fits Γ
  | .ifThen g track yes =>
    (g.fits Γ && g.ty = .bool) && track.all (fun x => Γ[x.index]? = some x.ty) && yes.fits Γ
  | .ifElse g track yes no =>
    (g.fits Γ && g.ty = .bool) && track.all (fun x => Γ[x.index]? = some x.ty) &&
      (yes.fits Γ && no.fits Γ)
  | .loop _ g track body =>
    (g.fits Γ && g.ty = .bool) && track.all (fun x => Γ[x.index]? = some x.ty) && body.fits Γ

/-- The indices of the variables that a statement assigns, in its scopes too. -/
def assigned : Stmt → List Nat
  | .skip => []
  | .assign x _ => [x.index]
  | .seq a b => a.assigned ++ b.assigned
  | .ifThen _ _ yes => yes.assigned
  | .ifElse _ _ yes no => yes.assigned ++ no.assigned
  | .loop _ _ _ body => body.assigned

/-- Whether every scope tracks what is assigned inside it. -/
def tracks : Stmt → Bool
  | .skip | .assign _ _ => true
  | .seq a b => a.tracks && b.tracks
  | .ifThen _ track yes => yes.assigned.all (· ∈ track.map Var.index) && yes.tracks
  | .ifElse _ track yes no =>
    (yes.assigned ++ no.assigned).all (· ∈ track.map Var.index) && (yes.tracks && no.tracks)
  | .loop _ _ track body => body.assigned.all (· ∈ track.map Var.index) && body.tracks

/-- Ordinary execution on the values of the variables. -/
def exec (env : Env) : Stmt → List Scalar → List Scalar
  | .skip, σ => σ
  | .assign x v, σ => σ.set x.index ((v.value env σ).convert x.ty)
  | .seq a b, σ => b.exec env (a.exec env σ)
  | .ifThen g _ yes, σ => if (g.value env σ).isTrue then yes.exec env σ else σ
  | .ifElse g _ yes no, σ => if (g.value env σ).isTrue then yes.exec env σ else no.exec env σ
  | .loop bound g _ body, σ =>
    whileAtMost (fun σ => (g.value env σ).isTrue) (fun σ => body.exec env σ) bound σ

/-- Runs an arm that can be taken. -/
def runArm (enter : Bool) (arm : Store → Build (Store × List Tracked)) (st : Store) :
    Build (Store × List Tracked) :=
  if enter then arm st else return (st, [])

/-- Runs a statement through the scopes of the engine. Gives the guards that scopes were handed. -/
def run (own : Nat → Ownership) : Stmt → Store → Build (Store × List Tracked)
  | .skip, st => return (st, [])
  | .assign x v, st => do
    let v ← v.build own st
    return (← st.set x v, [])
  | .seq a b, st => do
    let (st, gs) ← a.run own st
    let (st, hs) ← b.run own st
    return (st, gs ++ hs)
  | .ifThen g track yes, st => do
    let g ← g.build own st
    let c ← Conditional.tracking g track
    let (enter, c) := c.beginThen st
    let (st, inner) ← runArm (← enter) (fun st => yes.run own st) st
    let (closed, _, st) ← c.finish st
    closed
    return (st, g :: inner)
  | .ifElse g track yes no, st => do
    let g ← g.build own st
    let c ← Conditional.tracking g track
    let (enter, c) := c.beginThen st
    let (st, inner) ← runArm (← enter) (fun st => yes.run own st) st
    let (enter, c, st) := c.beginElse st
    let (st, others) ← runArm (← enter) (fun st => no.run own st) st
    let (closed, _, st) ← c.finish st
    closed
    return (st, g :: (inner ++ others))
  | .loop bound g track body, st => do
    let l ← Loop.tracking bound track
    l.rounds (g.build own) (fun st => body.run own st) (bound + 1) st

end Stmt

/-! ### Programs -/

/-- Whether first values fit the types of the variables declared before them. -/
def declarationsFit (Γ : List Ty) : List Formula → Bool
  | [] => true
  | v :: rest => v.fits Γ && declarationsFit (Γ ++ [v.ty]) rest

/-- Declares variables one after another. -/
def declareAll (own : Nat → Ownership) : List Formula → Store → Build Store
  | [], st => return st
  | v :: rest, st => do
    let v ← v.build own st
    declareAll own rest (st.declare v).2

/-- The first values of variables, after those of variables declared before. -/
def firstValues (env : Env) : List Formula → List Scalar → List Scalar
  | [], σ => σ
  | v :: rest, σ => firstValues env rest (σ ++ [v.value env σ])

/-- A program: variables declared with first values, and a body in which every scope tracks what is
assigned inside it. -/
structure Program where
  vars : List Formula
  body : Stmt
  vars_fit : declarationsFit [] vars = true
  body_fits : body.fits (vars.map Formula.ty) = true
  body_tracks : body.tracks = true

namespace Program

/-- The values of the variables after ordinary execution. -/
def exec (p : Program) (env : Env) : List Scalar := p.body.exec env (firstValues env p.vars [])

/-- The store after a run through the engine, and the guards that scopes were handed. -/
def run (p : Program) (own : Nat → Ownership) : Build (Store × List Tracked) := do
  let st ← declareAll own p.vars {}
  p.body.run own st

end Program

end Symex
