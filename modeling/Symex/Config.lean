/-!
Settings shared by the engine and the encoders.
-/

namespace Symex

/-- Settings of a run. -/
structure Config where
  /-- How often a loop is unwound when it has no bound of its own. -/
  unwindBound : Nat := 1
  /-- The logic a script names. -/
  logic : String := "ALL"
  /-- Whether branches are recorded as path constraints. -/
  recordPath : Bool := true
  /-- Every clock is greater than this number. -/
  clockLowerBound : Int := 0
deriving DecidableEq, Repr, Inhabited

namespace Config

/-- Settings without path constraints. -/
def minimal : Config := { recordPath := false }

def withUnwindBound (k : Nat) : Config := { unwindBound := k }

end Config

end Symex
