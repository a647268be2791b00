import Symex.Config
import Symex.Smt.Model

/-!
Scripts: declared symbols and asserted terms that make up one solver query. A symbol is declared
once; what it was declared as first stays.
-/

namespace Symex.Smt

/-- A declared symbol. -/
inductive Declaration where
  | const (name : String) (sort : TermSort)
  | func (name : String) (args : List TermSort) (result : TermSort)
deriving DecidableEq, Repr

namespace Declaration

def name : Declaration → String
  | .const n _ | .func n _ _ => n

def sexpr : Declaration → SExpr
  | .const n s => .list [.atom "declare-const", .atom (symbol n), s.sexpr]
  | .func n args s =>
    .list [.atom "declare-fun", .atom (symbol n), .list (args.map TermSort.sexpr), s.sexpr]

def text (d : Declaration) : String := d.sexpr.text

end Declaration

/-- Declarations and assertions of one query, in the order they were made. -/
structure Script where
  logic : String
  declarations : List Declaration := []
  assertions : List Term := []
deriving DecidableEq

namespace Script

def ofConfig (c : Config) : Script := { logic := c.logic }

def declares (s : Script) (name : String) : Bool := s.declarations.any (·.name == name)

/-- The declared names by ascending order. -/
def names (s : Script) : List String :=
  (Table.ofList (s.declarations.map fun d => (d.name, ()))).map (·.1)

/-- Declares a symbol, unless one of that name is declared already. -/
def declare (s : Script) (d : Declaration) : Script :=
  if s.declares d.name then s else { s with declarations := s.declarations ++ [d] }

def assert (s : Script) (t : Term) : Script := { s with assertions := s.assertions ++ [t] }

@[simp] theorem assertions_declare (s : Script) (d : Declaration) :
    (s.declare d).assertions = s.assertions := by
  unfold declare
  split <;> rfl

@[simp] theorem declarations_assert (s : Script) (t : Term) :
    (s.assert t).declarations = s.declarations := rfl

/-- After a declaration the names declared before and the new one are declared. -/
theorem declares_declare (s : Script) (d : Declaration) (name : String) :
    (s.declare d).declares name = (s.declares name || d.name == name) := by
  unfold declare
  split
  · next h =>
    by_cases hn : d.name = name
    · simp_all
    · simp [hn]
  · simp [declares]

/-- The conjunction of all assertions. -/
def formula (s : Script) : Term := .and s.assertions

/-- Whether all terms are true; the first false one decides. -/
def allHold (m : Model) : List Term → Except Error Bool
  | [] => .ok true
  | t :: ts => do if ← m.satisfies t then allHold m ts else return false

def holds (s : Script) (m : Model) : Except Error Bool := allHold m s.assertions

/-! ### Text -/

/-- Lines, each with its end. -/
def unlines (lines : List String) : String := lines.foldr (fun l rest => l ++ "\n" ++ rest) ""

def body (s : Script) : String :=
  unlines (s.declarations.map Declaration.text) ++
    unlines (s.assertions.map fun t => SExpr.text (.list [.atom "assert", t.sexpr]))

/-- The whole script, ending in a request for an answer. -/
def text (s : Script) : String :=
  "(set-logic " ++ s.logic ++ ")\n" ++ s.body ++ "(check-sat)\n"

end Script

end Symex.Smt
