import Symex.Memory.Instr
import Symex.Smt.Script

/-!
The symbols of one encoding pass: a constant for the value of an event, a clock for its time, clocks
for joins, and the function that maps a read to the write it sees. A symbol is declared when it is
first used; a clock then also gets its lower bound.
-/

namespace Symex.Memory

open Smt (Term TermSort)

/-- The script so far, with what has been handed out. -/
structure Symbols where
  script : Smt.Script
  lowerBound : Int
  /-- Numbers of the events that have a clock. -/
  clocks : List Nat := []
  /-- How many joins there were. -/
  joins : Nat := 0

/-- Name of the function from reads to writes. -/
def readsFrom : String := "rf"

/-- The term of a scalar: a boolean, or a bit-vector of the type's width. -/
def literal : Scalar → Term
  | .bool b => .bool b
  | s => .ofInt s.toInt s.ty.width

/-- The identity element of an operator at an operand type. -/
def identity (op : Operator) (ty : Ty) : Except Error Term :=
  match op.identity with
  | none => .error (.noIdentity op)
  | some s => .ok (literal (s.convert (op.resultTy ty)))

/-- One clock before another. -/
def happensBefore (x y : Term) : Term := .lt x y

/-- The number of an event as an integer; numbers wrap at 64 bits. -/
def eventNumber (id : Nat) : Term := .int (BitVec.ofNat 64 id).toInt

namespace Symbols

def ofConfig (c : Config) : Symbols := { script := .ofConfig c, lowerBound := c.clockLowerBound }

def declare (d : Smt.Declaration) : StateM Symbols Unit :=
  modify fun s => { s with script := s.script.declare d }

def assert (t : Term) : StateM Symbols Unit :=
  modify fun s => { s with script := s.script.assert t }

/-- The constant of an event's value. -/
def constant (id : Nat) (sort : TermSort) : StateM Symbols Term := do
  let name := "v" ++ toString id
  declare (.const name sort)
  return .const name sort

/-- Declares a clock and bounds it from below. -/
def declareClock (name : String) : StateM Symbols Term := do
  let clock := Term.const name .int
  declare (.const name .int)
  assert (.gt clock (.int (← get).lowerBound))
  return clock

/-- The clock of an event. -/
def clock (id : Nat) : StateM Symbols Term := do
  let name := "clk" ++ toString id
  if id ∈ (← get).clocks then
    return .const name .int
  else
    modify fun s => { s with clocks := id :: s.clocks }
    declareClock name

/-- That a read sees a write. -/
def readFrom (write read : Nat) : StateM Symbols Term := do
  declare (.func readsFrom [.int] .int)
  return .eq (eventNumber write) (.apply readsFrom [eventNumber read] .int)

/-- A new clock after two others. -/
def joinClocks (x y : Term) : StateM Symbols Term := do
  let n := (← get).joins
  modify fun s => { s with joins := n + 1 }
  let join ← declareClock (toString n ++ "_Join")
  assert (happensBefore x join)
  assert (happensBefore y join)
  return join

/-- The script of a pass, with a formula asserted after everything else. -/
def finish (s : Symbols) (formula : Term) : Smt.Script := s.script.assert formula

end Symbols

end Symex.Memory
