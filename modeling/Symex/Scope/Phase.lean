/-!
Phases of a scope and the calls that move it on. A conditional goes from its entry through one or
two arms to its end; a loop unwinds until it has joined.
-/

namespace Symex

/-- How far a conditional has come. -/
inductive Conditional.Phase where
  | entry
  | inThen
  | inElse
  | ended
deriving DecidableEq, Repr, Inhabited

/-- A call on a conditional. -/
inductive Conditional.Call where
  | track
  | beginThen
  | beginElse
  | finish
deriving DecidableEq, Repr, Inhabited

/-- How far a loop has come. -/
inductive Loop.Phase where
  | entry
  | unwinding
  | ended
deriving DecidableEq, Repr, Inhabited

def Conditional.Phase.name : Conditional.Phase → String
  | .entry => "Entry"
  | .inThen => "InThen"
  | .inElse => "InElse"
  | .ended => "Ended"

def Conditional.Call.name : Conditional.Call → String
  | .track => "track"
  | .beginThen => "begin_then"
  | .beginElse => "begin_else"
  | .finish => "end"

def Loop.Phase.name : Loop.Phase → String
  | .entry => "Entry"
  | .unwinding => "Unwinding"
  | .ended => "Ended"

end Symex
