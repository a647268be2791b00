import Symex.Memory.Values

/-!
The axioms of the memory model as terms over clocks. A read that happens sees one of the writes that
overlap it, which comes before it and has its value; writes to one place have different clocks; and a
read comes before every write that replaces what it saw.
-/

namespace Symex.Memory

open Smt (Term)

/-! ### Reads see writes -/

/-- For a read and a write it may see: what follows if it does, and that it does. -/
def rfPair (r : Event) (clock value : Term) (guard : Option Term) (w : Event) :
    Pass (Term × Term) := do
  if w.sort = r.sort then
    let rf ← Symbols.readFrom w.id r.id
    let wClock ← Symbols.clock w.id
    let wGuard ← w.guard?
    let wValue ← Symbols.constant w.id w.sort
    let effects := [happensBefore wClock clock] ++ wGuard.toList ++ guard.toList ++ [.eq wValue value]
    return (.implies rf (.conj effects), rf)
  else
    throw (.sortMismatch r.sort w.sort)

/-- The clauses of a read: one for each write that overlaps it, and that it sees one of them. -/
def rfRead (rel : Relation) (r : Event) : Pass (List Term) := do
  if r.zone.isBottom then
    return []
  else
    let clock ← Symbols.clock r.id
    let value ← Symbols.constant r.id r.sort
    let guard ← r.guard?
    let pairs ← (rel.find r.zone (·.isWrite)).mapM (rfPair r clock value guard)
    return pairs.map (·.1) ++ [.implies (guard.getD (.bool true)) (.disj (pairs.map (·.2)))]

def encodeRf (rel : Relation) : Pass Term := do
  return .conj (← rel.reads.mapM (rfRead rel)).flatten

/-! ### Writes are serialised -/

/-- The writes of an atom, if there are at least two, have distinct clocks. -/
def wsAtom (rel : Relation) (atom : Zone) : StateM Symbols (Option Term) := do
  let writes := rel.find atom (·.isWrite)
  if writes.length < 2 then return none
  else return some (.distinct (← writes.mapM fun w => Symbols.clock w.id))

def encodeWs (rel : Relation) : StateM Symbols Term := do
  return .conj ((← rel.atoms.mapM (wsAtom rel)).filterMap id)

/-! ### Reads come before what replaces them -/

/-- Two different writes and a read in one zone. -/
def frTriples (rel : Relation) (atom : Zone) : List (Event × Event × Event) :=
  let (reads, writes) := rel.partition atom
  writes.flatMap fun x =>
    (writes.filter fun y => y.id ≠ x.id).flatMap fun y => reads.map fun r => (x, y, r)

/-- All triples, each once. -/
def allFrTriples (rel : Relation) : List (Event × Event × Event) :=
  firstUses (fun (x, y, r) => [x.id, y.id, r.id]) (rel.atoms.flatMap (frTriples rel))

/-- If a read sees the first write, it comes before a later second one. -/
def frClause : Event × Event × Event → Pass Term
  | (x, y, r) => do
    let xClock ← Symbols.clock x.id
    let yClock ← Symbols.clock y.id
    let rClock ← Symbols.clock r.id
    let rf ← Symbols.readFrom x.id r.id
    let guard ← y.guard?
    return .implies (.conj ([rf, happensBefore xClock yClock] ++ guard.toList))
      (happensBefore rClock yClock)

def encodeFr (rel : Relation) : Pass Term := do
  return .conj (← (allFrTriples rel).mapM frClause)

/-! ### The whole script -/

/-- All parts together. -/
def encodeParts (rel : Relation) : Pass Term := do
  let values ← encodeWrites rel
  let rf ← encodeRf rel
  let ws ← encodeWs rel
  let fr ← encodeFr rel
  return .conj [values, rf, ws, fr]

/-- The script of a relation: bounds of the clocks first, then the parts. -/
def encode (rel : Relation) (c : Config) : Except Error Smt.Script :=
  match (encodeParts rel).run.run (.ofConfig c) with
  | (.error e, _) => .error e
  | (.ok formula, s) => .ok (s.finish formula)

end Symex.Memory
