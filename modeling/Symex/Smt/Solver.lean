import Symex.Smt.Script

/-!
Replaying a script into a solver: all declarations, all assertions, then the question. The first
call that fails ends the replay and leaves the solver as it is. A transcript is a solver that notes
the calls it gets and can be told to refuse one of them.
-/

namespace Symex.Smt

/-- The answer to a query. -/
inductive SatResult where
  | sat
  | unsat
  | unknown
deriving DecidableEq, Repr

/-- A solver with states `σ`; a call changes the state also when it fails. -/
structure Solver (σ : Type) where
  declare : Declaration → ExceptT Error (StateM σ) Unit
  assert : Term → ExceptT Error (StateM σ) Unit
  check : ExceptT Error (StateM σ) SatResult

/-- Replays a script and asks for its satisfiability. -/
def Script.replay {σ : Type} (s : Script) (solver : Solver σ) :
    ExceptT Error (StateM σ) SatResult := do
  s.declarations.forM solver.declare
  s.assertions.forM solver.assert
  solver.check

/-- A call that a solver can get. -/
inductive SolverCall where
  | declare (d : Declaration)
  | assert (t : Term)
  | check

def SolverCall.text : SolverCall → String
  | .declare d => "declare " ++ d.text
  | .assert t => "assert " ++ t.text
  | .check => "check"

/-- A solver that notes its calls and answers with a given result. Once it has noted as many calls
as the limit allows, it refuses. -/
structure Transcript where
  result : SatResult
  limit : Option Nat

namespace Transcript

def note (tr : Transcript) (call : SolverCall) : ExceptT Error (StateM (List SolverCall)) Unit := do
  let calls ← get
  if tr.limit = some calls.length then
    throw (.solver ("refused call " ++ toString calls.length))
  else
    set (calls ++ [call])

def solver (tr : Transcript) : Solver (List SolverCall) where
  declare d := tr.note (.declare d)
  assert t := tr.note (.assert t)
  check := do
    tr.note .check
    return tr.result

end Transcript

end Symex.Smt
