import Symex.Config
import Symex.Expr.Encoding
import Symex.Tracked

/-!
Path constraints: each branch on a symbolic condition notes the condition, or its negation when the
data are false, so the noted constraints describe the inputs that take the same path.
-/

namespace Symex

/-- The branches taken so far. -/
structure Path where
  recording : Bool
  /-- Oldest first. -/
  constraints : List Expr := []

namespace Path

def ofConfig (c : Config) : Path := { recording := c.recordPath }

/-- Branches on a condition; the answer is its data. -/
def branch (p : Path) (cond : Tracked) : Mint (Bool × Path) := do
  match p.recording, cond.companion with
  | true, some e =>
    let constraint ← if cond.isTrue then pure e else Mint.not e
    return (cond.isTrue, { p with constraints := p.constraints ++ [constraint] })
  | _, _ => return (cond.isTrue, p)

def reset (p : Path) : Path := { p with constraints := [] }

/-- One constraint a line. -/
def text (p : Path) : String := Smt.Script.unlines (p.constraints.map Expr.text)

/-- Adds all constraints to a script. Free variables are noted on the side and declared once every
constraint has been encoded. What has been added to the script stays when this fails. -/
def encodeIn (p : Path) : ExceptT Error (StateM Smt.Script) Unit := do
  let (terms, free) := (Expr.encodeAll p.constraints).run.run []
  let terms ← terms
  modify free.declareIn
  terms.forM fun t => modify (·.assert t)

end Path

end Symex
