import Symex.Memory.Relation
import Symex.Memory.Symbols

/-!
Instructions and stored values as terms over bit-vectors. All operands of an operator must have one
sort. An offset into an array is widened to the width of an index.
-/

namespace Symex.Memory

open Smt (Term TermSort)

/-- Encoding passes; symbols handed out before a failure stay. -/
abbrev Pass := ExceptT Error (StateM Symbols)

/-- The negation of a boolean; of a bit-vector, that it is zero. -/
def negate (t : Term) : Except Error Term := do
  match ← t.sort with
  | .bool => return .not t
  | .bitVec w => return .eq t (.ofInt 0 w)
  | found => throw (.sortMismatch .bool found)

/-- Whether further operands have the sort of the first. -/
def checkSorts (expected : TermSort) : List Term → Except Error Unit
  | [] => return ()
  | t :: ts => do
    let found ← t.sort
    if found = expected then checkSorts expected ts else throw (.sortMismatch expected found)

/-- The only sort of some operands. -/
def commonSort : List Term → Except Error TermSort
  | [] => return .bool
  | t :: ts => do
    let s ← t.sort
    checkSorts s ts
    return s

/-- An operator applied to operands of a sort. -/
def applyAt (op : Operator) (sort : TermSort) : List Term → Except Error Term
  | [t] =>
    match op with
    | .not => negate t
    | _ => if op.identity.isSome then .ok t else .error (.partialNary op)
  | ts =>
    match op, sort, ts with
    | .add, .bitVec _, [] => .error (.emptyNary op)
    | .add, .bitVec _, t :: rest => .ok (rest.foldl .bvAdd t)
    | .and, .bool, _ => .ok (.conj ts)
    | .or, .bool, _ => .ok (.disj ts)
    | .eq, _, _ => .ok (.chain .eq ts)
    | .lt, .bitVec _, _ => .ok (.chain .bvSlt ts)
    | .not, _, _ => .error (.partialNary op)
    | _, _, _ => .error (.sortMismatch (if op.isBoolean then .bool else .bitVec 32) sort)

/-- An operator applied to operands that have to agree in sort. -/
def applyWords (op : Operator) (ts : List Term) : Except Error Term := do
  applyAt op (← commonSort ts) ts

/-- An offset as an index. -/
def indexTerm (offset : Term) : Except Error Term := do
  match ← offset.sort with
  | .bitVec w =>
    if w = TermSort.indexWidth then return offset
    else if w < TermSort.indexWidth then return .signExtend (TermSort.indexWidth - w) offset
    else throw (.sortMismatch (.bitVec TermSort.indexWidth) (.bitVec w))
  | found => throw (.sortMismatch (.bitVec TermSort.indexWidth) found)

/-- An element of an array, if it is one. -/
def elementTerm (memory index : Term) : Except Error Term := do
  let element := Term.select memory index
  let _ ← element.sort
  return element

namespace Instr

mutual
def encode : Instr → Pass Term
  | .lit value => return literal value
  | .seen a => Symbols.constant a.id a.sort
  | .unary op i => do
    let t ← encode i
    applyWords op [t]
  | .binary op l r => do
    let x ← encode l
    let y ← encode r
    applyWords op [x, y]
  | .nary op _ is =>
    if is.isEmpty then throw (.emptyNary op) else do applyWords op (← encodeAll is)
  | .deref m o => do
    let m ← encode m
    let o ← encode o
    elementTerm m (← indexTerm o)
def encodeAll : List Instr → Pass (List Term)
  | [] => return []
  | i :: is => do
    let t ← encode i
    return t :: (← encodeAll is)
end

/-- Encodes instructions one after another; one that fails does not stop the others. -/
def encodeEach (s : Symbols) : List Instr → List (Except Error Term) × Symbols
  | [] => ([], s)
  | i :: is =>
    let (t, s) := i.encode.run.run s
    let (ts, s) := encodeEach s is
    (t :: ts, s)

end Instr

namespace Event

/-- The guard of an event, if it has one. -/
def guard? (e : Event) : Pass (Option Term) :=
  match e.condition with
  | none => return none
  | some c => some <$> c.encode

/-- The guard of an event; without one it is true. -/
def guard (e : Event) : Pass Term := do return (← e.guard?).getD (.bool true)

/-- The term that an event stores. -/
def stored? (e : Event) : Pass (Option Term) :=
  match e.payload with
  | .none => return none
  | .value v =>
    match e.shape with
    | .scalar _ => some <$> v.encode
    | .array _ => do return some (.constArray e.sort (← v.encode))
  | .store m o v => do
    let m ← m.encode
    let o ← indexTerm (← o.encode)
    return some (.store m o (← v.encode))

/-- That the value of an event is what it stores; true of a read. -/
def equation (e : Event) : Pass Term := do
  match ← e.stored? with
  | none => return .bool true
  | some v => return .eq (← Symbols.constant e.id e.sort) v

end Event

/-- The equations of all writes. -/
def encodeWrites (r : Relation) : Pass Term := do return .conj (← r.writes.mapM Event.equation)

end Symex.Memory
