import Symex.Error
import Symex.Memory.Instr

/-!
Events: accesses with the guard under which they happen and what they store. A recorder numbers them
in program order; guards that are open when an event is recorded become its condition.
-/

namespace Symex.Memory

/-- What an event stores. -/
inductive Payload where
  /-- A read stores nothing. -/
  | none
  /-- A value; for an array, that of every element. -/
  | value (v : Instr)
  /-- A value for one element of an array. -/
  | store (memory offset value : Instr)

def Payload.kind : Payload → AccessKind
  | .none => .read
  | .value _ => .direct
  | .store _ _ _ => .indirect

/-- A recorded event. -/
structure Event extends Access where
  /-- The guard, if there is one. -/
  condition : Option Instr
  payload : Payload

/-- Records events in program order. -/
structure Recorder where
  events : List Event := []
  /-- Open guards, the outermost first. -/
  guards : List Instr := []

instance : Inhabited Recorder := ⟨{}⟩

namespace Recorder

def pushGuard (r : Recorder) (guard : Instr) : Recorder := { r with guards := r.guards ++ [guard] }

/-- Closes the innermost guard. -/
def popGuard (r : Recorder) : Option Instr × Recorder :=
  (r.guards.getLast?, { r with guards := r.guards.dropLast })

/-- The condition that the open guards make together. -/
def condition (r : Recorder) : Option Instr :=
  match r.guards with
  | [] => none
  | [guard] => some guard
  | guards => some (.nary .and .bool guards)

def record (r : Recorder) (shape : Shape) (addr : Address) (payload : Payload) : Event × Recorder :=
  let e : Event :=
    { id := r.events.length + 1, kind := payload.kind, shape, addr, condition := r.condition, payload }
  (e, { r with events := r.events ++ [e] })

def read (r : Recorder) (ty : Ty) (addr : Address) : Event × Recorder :=
  r.record (.scalar ty) addr .none

def readArray (r : Recorder) (element : Ty) (addr : Address) : Event × Recorder :=
  r.record (.array element) addr .none

def write (r : Recorder) (addr : Address) (v : Instr) : Event × Recorder :=
  r.record (.scalar v.ty) addr (.value v)

/-- Sets every element of an array. -/
def writeArray (r : Recorder) (addr : Address) (element : Ty) (init : Scalar) : Event × Recorder :=
  r.record (.array element) addr (.value (.lit (init.convert element)))

/-- Sets one element of an array that was read before. -/
def writeIndirect (r : Recorder) (memory : Access) (offset v : Instr) :
    Except Error (Event × Recorder) :=
  match memory.kind, memory.shape with
  | .read, .array _ => .ok (r.record memory.shape memory.addr (.store (.seen memory) offset v))
  | _, _ => .error (.sortMismatch (.arrayOf (.bitVec 32)) memory.sort)

def event? (r : Recorder) (id : Nat) : Option Event :=
  match id with
  | 0 => none
  | n + 1 => r.events[n]?

end Recorder

end Symex.Memory
