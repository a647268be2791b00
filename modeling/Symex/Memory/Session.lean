import Symex.Memory.Order
import Symex.Refusal

/-!
A session with recorders: steps record events, look at them and encode them. One recorder is current
at a time; an event is named by its number there or in a given recorder.
-/

namespace Symex.Memory

/-- Names an event: in a recorder, or in the current one. -/
structure EventRef where
  recorder : Option Nat
  id : Nat

/-- How an instruction is built. -/
inductive InstrForm where
  | lit (value : Scalar)
  | event (e : EventRef)
  | unary (op : Operator) (i : InstrForm)
  | binary (op : Operator) (l r : InstrForm)
  | nary (op : Operator) (ty : Ty) (operands : List InstrForm)
  | deref (memory offset : InstrForm)

/-- Which events a search is for. -/
inductive Wanted where
  | any
  | read
  | write
  /-- Events with a condition. -/
  | guarded

def Wanted.test : Wanted → Event → Bool
  | .any, _ => true
  | .read, e => e.isRead
  | .write, e => e.isWrite
  | .guarded, e => e.condition.isSome

/-- A part of the encoding of a relation. -/
inductive Part where
  | values
  | rf
  | ws
  | fr

def Part.name : Part → String
  | .values => "values"
  | .rf => "rf"
  | .ws => "ws"
  | .fr => "fr"

def Part.encode (rel : Relation) : Part → Pass Smt.Term
  | .values => encodeWrites rel
  | .rf => encodeRf rel
  | .ws => encodeWs rel
  | .fr => encodeFr rel

/-- A step. A relation is that of the current recorder unless events are listed. -/
inductive Step where
  | newRecorder
  | switch (recorder : Nat)
  | pushGuard (guard : InstrForm)
  | popGuard
  | read (ty : Ty) (addr : Address)
  | readArray (ty : Ty) (addr : Address)
  | write (addr : Address) (value : InstrForm)
  | writeArray (addr : Address) (ty : Ty) (init : Scalar)
  | writeIndirect (memory : EventRef) (offset value : InstrForm)
  | event (id : Nat)
  | events
  | instr (value : InstrForm)
  | encodeInstrs (values : List InstrForm) (models : List Smt.Model)
  | relation (of : Option (List EventRef))
  | find (of : Option (List EventRef)) (zone : Zone) (wanted : Wanted)
  | encodeEvents (of : Option (List EventRef))
  | encodeOrder (of : Option (List EventRef)) (parts : List Part)
  | encode (of : Option (List EventRef)) (models : List Smt.Model)

/-- The equation and the guard of an event. -/
structure EventTerms where
  id : Nat
  equation : Except Error Smt.Term
  guard : Except Error Smt.Term

/-- The answer to a step. -/
inductive Answer where
  | refused (r : Refusal)
  | index (n : Nat)
  /-- A guard, if there is one. -/
  | guard (g : Option Instr)
  | event (e : Option Event)
  | events (es : List Event)
  | instr (i : Instr)
  | instrTerms (terms : List (Except Error (Smt.Term × List (Except Error Smt.Value))))
      (script : Smt.Script)
  | relation (r : Relation)
  | found (events reads writes : List Event)
  | eventTerms (terms : List EventTerms) (script : Smt.Script)
  | parts (terms : List (Part × Except Error Smt.Term)) (script : Smt.Script)
  | script (s : Smt.Script) (holds : List (Except Error Bool))

/-- The state of a session. -/
structure Session where
  config : Config
  recorders : List Recorder := [{}]
  current : Nat := 0

namespace Session

/-- Steps change the state also when they are refused. -/
abbrev Run := ExceptT Refusal (StateM Session)

def need {α : Type} (what : String) : Option α → Run α
  | some a => return a
  | none => throw (.missing what)

def lift {α : Type} (x : Except Error α) : Run α :=
  match x with
  | .error e => throw (.failed e)
  | .ok a => return a

def recorder : Run Recorder := do
  let s ← get
  need "recorder" s.recorders[s.current]?

def setRecorder (r : Recorder) : Run Unit :=
  modify fun s => { s with recorders := s.recorders.set s.current r }

/-- Keeps the recorder that has noted an event. -/
def recorded (x : Event × Recorder) : Run Answer := do
  setRecorder x.2
  return .event (some x.1)

def resolve (e : EventRef) : Run Event := do
  let s ← get
  let r ← need "recorder" s.recorders[e.recorder.getD s.current]?
  need "event" (r.event? e.id)

mutual
def evalInstr : InstrForm → Run Instr
  | .lit value => return .lit value
  | .event e => return .seen (← resolve e).toAccess
  | .unary op i => return .unary op (← evalInstr i)
  | .binary op l r => do
    let l ← evalInstr l
    return .binary op l (← evalInstr r)
  | .nary op ty is => return .nary op ty (← evalInstrs is)
  | .deref m o => do
    let m ← evalInstr m
    return .deref m (← evalInstr o)
def evalInstrs : List InstrForm → Run (List Instr)
  | [] => return []
  | i :: is => do
    let i ← evalInstr i
    return i :: (← evalInstrs is)
end

def relationOf : Option (List EventRef) → Run Relation
  | none => return (← recorder).relation
  | some refs => return .ofEvents (← refs.mapM resolve)

/-- The terms of events, one after another. -/
def eventTerms (s : Symbols) : List Event → List EventTerms × Symbols
  | [] => ([], s)
  | e :: es =>
    let (equation, s) := e.equation.run.run s
    let (guard, s) := e.guard.run.run s
    let (ts, s) := eventTerms s es
    (⟨e.id, equation, guard⟩ :: ts, s)

/-- The terms of parts, one after another. -/
def partTerms (rel : Relation) (s : Symbols) :
    List Part → List (Part × Except Error Smt.Term) × Symbols
  | [] => ([], s)
  | p :: ps =>
    let (t, s) := (p.encode rel).run.run s
    let (ts, s) := partTerms rel s ps
    ((p, t) :: ts, s)

def runStep : Step → Run Answer
  | .newRecorder => do
    let n := (← get).recorders.length
    modify fun s => { s with recorders := s.recorders ++ [{}], current := n }
    return .index n
  | .switch n => do
    modify fun s => { s with current := n }
    return .index n
  | .pushGuard g => do
    let g ← evalInstr g
    setRecorder ((← recorder).pushGuard g)
    return .guard (some g)
  | .popGuard => do
    let (g, r) := (← recorder).popGuard
    setRecorder r
    return .guard g
  | .read ty addr => do recorded ((← recorder).read ty addr)
  | .readArray ty addr => do recorded ((← recorder).readArray ty addr)
  | .write addr v => do
    let v ← evalInstr v
    recorded ((← recorder).write addr v)
  | .writeArray addr ty init => do recorded ((← recorder).writeArray addr ty init)
  | .writeIndirect memory offset v => do
    let memory ← resolve memory
    let offset ← evalInstr offset
    let v ← evalInstr v
    recorded (← lift ((← recorder).writeIndirect memory.toAccess offset v))
  | .event id => return .event ((← recorder).event? id)
  | .events => return .events (← recorder).events
  | .instr i => return .instr (← evalInstr i)
  | .encodeInstrs is models => do
    let is ← evalInstrs is
    let (terms, s) := Instr.encodeEach (.ofConfig (← get).config) is
    let withValues (t : Smt.Term) := (t, models.map (·.eval t))
    return .instrTerms (terms.map (·.map withValues)) (s.finish (.bool true))
  | .relation of => return .relation (← relationOf of)
  | .find of z wanted => do
    let rel ← relationOf of
    let (reads, writes) := rel.partition z
    return .found (rel.find z wanted.test) reads writes
  | .encodeEvents of => do
    let rel ← relationOf of
    let (terms, s) := eventTerms (.ofConfig (← get).config) rel.events
    return .eventTerms terms (s.finish (.bool true))
  | .encodeOrder of parts => do
    let rel ← relationOf of
    let (terms, s) := partTerms rel (.ofConfig (← get).config) parts
    return .parts terms (s.finish (.bool true))
  | .encode of models => do
    let script ← lift (Memory.encode (← relationOf of) (← get).config)
    return .script script (models.map script.holds)

/-- Runs steps; a refused one does not stop the others. -/
def runSteps (s : Session) : List Step → List Answer
  | [] => []
  | step :: rest =>
    match (runStep step).run.run s with
    | (.ok a, s) => a :: runSteps s rest
    | (.error r, s) => .refused r :: runSteps s rest

/-- The answers to the steps of a whole session. -/
def run (config : Config) (steps : List Step) : List Answer := runSteps { config } steps

end Session

end Symex.Memory
