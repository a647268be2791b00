import Symex.Error

/-!
Why a step of a session has no result.
-/

namespace Symex

/-- The reason why a step is refused. -/
inductive Refusal where
  | failed (e : Error)
  /-- A name, a store, an event or a companion that does not exist. -/
  | missing (what : String)
  /-- A value that should be a `bool`, or a scope of the other kind. -/
  | unfit (what : String)
  /-- A loop that went on for too long. -/
  | endless

end Symex
