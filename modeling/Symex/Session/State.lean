import Symex.Path
import Symex.Refusal
import Symex.Scope.Conditional
import Symex.Session.Form

/-!
The state of a session: everything a step can name, the stores and the path. All expressions that the
state holds are its *live* ones; a node can be taken apart only if no other live expression reaches
it.
-/

namespace Symex

namespace Session

/-- A named scope. -/
inductive Scope where
  | conditional (c : Conditional)
  | loop (l : Loop)

def Scope.held : Scope → List Expr
  | .conditional c => c.held
  | .loop l => l.held

end Session

/-- The state of a session. -/
structure Session where
  config : Config
  /-- The stamp of the next node. -/
  next : Nat := 0
  values : Table String Tracked := []
  exprs : Table String Expr := []
  drafts : Table String Draft := []
  vars : Table String Var := []
  scopes : Table String Session.Scope := []
  stores : List Store := [{}]
  path : Path

namespace Session

def ofConfig (config : Config) : Session := { config, path := .ofConfig config }

/-- The live expressions. -/
def live (s : Session) : List Expr :=
  s.values.filterMap (·.2.companion) ++ s.exprs.map (·.2) ++ s.drafts.flatMap (·.2.operands) ++
    s.stores.flatMap (·.slots.filterMap (·.companion)) ++ s.scopes.flatMap (·.2.held) ++
    s.path.constraints

/-- Steps change the state also when they are refused. -/
abbrev Run := ExceptT Refusal (StateM Session)

/-- Lets a computation build nodes. -/
def mint {α : Type} (x : Mint α) : Run α := do
  let s ← get
  let (a, next) := x.run s.next
  set { s with next }
  return a

/-- Lets a computation build nodes or fail. -/
def build {α : Type} (x : Build α) : Run α := do
  let s ← get
  match x.run s.next with
  | .error e => throw (.failed e)
  | .ok (a, next) =>
    set { s with next }
    return a

def lift {α : Type} (x : Except Error α) : Run α :=
  match x with
  | .error e => throw (.failed e)
  | .ok a => return a

/-- Something that has to exist. -/
def need {α : Type} (what : String) : Option α → Run α
  | some a => return a
  | none => throw (.missing what)

def value (name : String) : Run Tracked := do need name ((← get).values.find? name)

def namedExpr (name : String) : Run Expr := do need name ((← get).exprs.find? name)

def namedDraft (name : String) : Run Draft := do need name ((← get).drafts.find? name)

def var (name : String) : Run Var := do need name ((← get).vars.find? name)

def store (index : Nat) : Run Store := do need "store" (← get).stores[index]?

def conditional (name : String) : Run Conditional := do
  match ← need name ((← get).scopes.find? name) with
  | .conditional c => return c
  | .loop _ => throw (.unfit name)

def namedLoop (name : String) : Run Loop := do
  match ← need name ((← get).scopes.find? name) with
  | .loop l => return l
  | .conditional _ => throw (.unfit name)

def setValue (name : String) (v : Tracked) : Run Unit :=
  modify fun s => { s with values := s.values.insert name v }

def setExpr (name : String) (e : Expr) : Run Unit :=
  modify fun s => { s with exprs := s.exprs.insert name e }

def setDraft (name : String) (b : Draft) : Run Unit :=
  modify fun s => { s with drafts := s.drafts.insert name b }

def setVar (name : String) (x : Var) : Run Unit :=
  modify fun s => { s with vars := s.vars.insert name x }

def setScope (name : String) (sc : Scope) : Run Unit :=
  modify fun s => { s with scopes := s.scopes.put name sc }

def setStore (index : Nat) (st : Store) : Run Unit :=
  modify fun s => { s with stores := s.stores.set index st }

/-- Removes a name; answers whether it was there. -/
def dropName (kind : NameKind) (name : String) : Run Bool :=
  modifyGet fun s =>
    match kind with
    | .value => (s.values.contains name, { s with values := s.values.erase name })
    | .expr => (s.exprs.contains name, { s with exprs := s.exprs.erase name })
    | .draft => (s.drafts.contains name, { s with drafts := s.drafts.erase name })
    | .scope => (s.scopes.contains name, { s with scopes := s.scopes.erase name })

end Session

end Symex
