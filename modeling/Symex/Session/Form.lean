import Symex.Scope.Loop
import Symex.Smt.Script

/-!
The language of a session: forms that build expressions and values, and steps that use them.
-/

namespace Symex.Session

/-- How an expression is built. -/
inductive ExprForm where
  | any (name : String) (ty : Ty)
  | lit (value : Scalar) (name : Option String)
  | cast (ty : Ty) (e : ExprForm)
  | unary (op : Operator) (e : ExprForm)
  | ite (cond yes no : ExprForm)
  | nary (op : Operator) (operandTy : Ty) (operands : List ExprForm)
  /-- A named expression, shared. -/
  | ref (name : String)
  /-- A named expression, which loses its name. -/
  | take (name : String)
  /-- The companion of a named value, shared. -/
  | companionOf (name : String)

/-- How a value is built. -/
inductive ValueForm where
  | new (data : Scalar)
  | any (name : String) (ty : Ty)
  | withExpr (data : Scalar) (e : ExprForm)
  | copy (name : String)
  /-- A named value, which loses its name. -/
  | take (name : String)
  | get (x : String) (store : Nat)
  | add (l r : ValueForm)
  | lt (l r : ValueForm)
  | equals (l r : ValueForm)
  | and (l r : ValueForm)
  | or (l r : ValueForm)
  | not (v : ValueForm)
  | cast (ty : Ty) (v : ValueForm)

/-- What a name can stand for. -/
inductive NameKind where
  | value
  | expr
  | draft
  | scope

/-- A step of a session. -/
inductive Step where
  | bind (name : String) (v : ValueForm)
  | eval (v : ValueForm)
  | inspect (name : String)
  | symbolize (name symbol : String)
  | assign (name : String) (v : ValueForm)
  | same (a b : ValueForm)
  | encode (v : ValueForm) (models : List Smt.Model)
  | drop (kind : NameKind) (name : String)
  | expr (name : String) (e : ExprForm)
  | draft (name : String) (op : Operator) (ty : Ty)
  | append (name : String) (e : ExprForm)
  | prepend (name : String) (e : ExprForm)
  | inspectDraft (name : String)
  | close (name target : String)
  | reopen (name : String) (op : Operator) (target : String)
  | sameExpr (a b : ExprForm)
  | encodeExpr (e : ExprForm) (models : List Smt.Model)
  | newStore
  | cloneStore (store : Nat)
  | storeInfo (store : Nat)
  | declare (x : String) (v : ValueForm) (store : Nat)
  | get (x : String) (store : Nat)
  | set (x : String) (v : ValueForm) (store : Nat)
  | dump (store : Nat)
  | openIf (name : String) (guard : ValueForm)
  | beginThen (scope : String) (store : Nat)
  | beginElse (scope : String) (store : Nat)
  | finish (scope : String) (store : Nat)
  /-- Opens a loop; without a policy its bound comes from the settings. -/
  | openLoop (name : String) (policy : Option Policy)
  | unwind (scope : String) (guard : ValueForm) (store : Nat)
  | track (scope x : String)
  /-- Asks a bounded policy a number of times. -/
  | askBound (bound : Nat) (guard : ValueForm) (calls : Nat)
  /-- Runs a whole conditional; each arm runs if it can be taken. -/
  | cond (guard : ValueForm) (track : List String) (yes : List Step) (no : Option (List Step))
      (store : Nat)
  /-- Unwinds a loop, running the body after each positive answer. -/
  | loop (scope : String) (guard : ValueForm) (body : List Step) (store : Nat)
  | branch (v : ValueForm)
  | resetPath
  | path
  | encodePath (declared : List Smt.Declaration) (models : List Smt.Model)

end Symex.Session
