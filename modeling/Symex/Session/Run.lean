import Symex.Session.Eval

/-!
Running the steps of a session. Every step has an answer; a step that is refused leaves what it did
before, and the following steps still run.
-/

namespace Symex.Session

/-- A term with its value under each model and the declarations it needs. -/
structure Encoded where
  term : Smt.Term
  values : List (Except Error Smt.Value)
  declarations : List Smt.Declaration

/-- The path in a script: the failure, if any, the script, and whether it holds under each model. -/
structure PathScript where
  failed : Option Error
  script : Smt.Script
  holds : List (Except Error Bool)

/-- The answer to a step. -/
inductive Answer where
  | refused (r : Refusal)
  | done
  | flag (b : Bool)
  | flags (bs : List Bool)
  | count (n : Nat)
  | value (v : Tracked)
  /-- A value with its companion. -/
  | shown (v : Tracked)
  /-- The value of a variable with the version of its slot. -/
  | variable (v : Tracked) (version : Nat)
  | expr (e : Expr)
  | draft (b : Draft)
  | reopened (operands : Nat)
  /-- An expression that could not be taken apart. -/
  | kept (e : Expr)
  | compared (same alike : Bool)
  | encoded (e : Encoded)
  | storeSize (n : Nat)
  | declared (x : Var) (size : Nat)
  | dump (vars : List (String × Except Error (Tracked × Nat)))
  | unwound (more : Bool) (iterations : Nat)
  /-- Answers of the arms that ran. -/
  | arms (yes no : Option (List Answer))
  | bodies (rounds : List (List Answer))
  | path (p : Path)
  | pathScript (p : PathScript)

/-- A variable's value and version in a store. -/
def readVar (st : Store) (x : Var) : Except Error (Tracked × Nat) := do
  let v ← st.get x
  return (v, ← st.version x)

/-- Encodes an expression on its own. -/
def encodeAlone (e : Expr) (models : List Smt.Model) : Except Error Encoded :=
  match e.encode.run.run [] with
  | (.error err, _) => .error err
  | (.ok term, free) =>
    .ok {
      term
      values := models.map (·.eval term)
      declarations := (free.declareIn { logic := "" }).declarations }

/-- Declares symbols in an empty script and adds the path to it. -/
def encodePath (s : Session) (declared : List Smt.Declaration) (models : List Smt.Model) :
    PathScript :=
  let start := declared.foldl .declare (.ofConfig s.config)
  let (result, script) := s.path.encodeIn.run.run start
  let failed := match result with
    | .ok () => none
    | .error e => some e
  ⟨failed, script, models.map script.holds⟩

/-- Asks a loop for another round. -/
def unwindOnce (inFlight : List Expr) (scope : String) (guard : ValueForm) (st : Nat) :
    Run (Bool × Nat) := do
  let guard ← evalGuard inFlight guard
  let l ← namedLoop scope
  let (more, l, s) ← mint (l.unwind (← store st) guard)
  setScope scope (.loop l)
  setStore st s
  return (← lift more, l.iterations.length)

/-- Begins a new conditional on a store. -/
def beginNew (inFlight : List Expr) (guard : ValueForm) (track : List String) (st : Nat) :
    Run (Bool × Conditional) := do
  let guard ← evalGuard inFlight guard
  let vars ← track.mapM var
  let c ← lift (Conditional.tracking guard vars)
  let (b, c) := c.beginThen (← store st)
  return (← lift b, c)

/-- Begins the second arm of a conditional on a store. -/
def beginElseOn (c : Conditional) (st : Nat) : Run (Except Error Bool × Conditional) := do
  let (b, c, s) := c.beginElse (← store st)
  setStore st s
  return (b, c)

/-- Ends a conditional on a store. -/
def finishOn (c : Conditional) (st : Nat) : Run (Except Error Unit × Conditional) := do
  let (closed, c, s) ← mint (c.finish (← store st))
  setStore st s
  return (closed, c)

/-- The most rounds a loop step runs. -/
def roundLimit : Nat := 100000

/-- Runs rounds as long as there is another one, after those that have been run, last ones first. -/
def rounds (more : Run Bool) (body : Run (List Answer)) :
    Nat → List (List Answer) → Run (List (List Answer))
  | 0, _ => throw .endless
  | n + 1, before => do
    if ← more then
      let answers ← body
      rounds more body n (answers :: before)
    else
      return before.reverse

/-- The answer of a computation, a refusal included. -/
def settle (x : Run Answer) : Run Answer := tryCatch x (return .refused ·)

mutual
/-- Runs a step. Expressions in flight belong to conditionals around it. -/
def runStep (inFlight : List Expr) : Step → Run Answer
  | .bind name v => do
    let v ← evalValue inFlight v
    setValue name v
    return .value v
  | .eval v => return .value (← evalValue inFlight v)
  | .inspect name => return .shown (← value name)
  | .symbolize name symbol => do
    let v ← mint ((← value name).symbolize symbol)
    setValue name v
    return .value v
  | .assign name v => do
    let source ← evalValue inFlight v
    let v ← mint ((← value name).assign source)
    setValue name v
    return .value v
  | .same a b => do
    let a ← evalValue inFlight a
    let b ← evalValue (a.companion.toList ++ inFlight) b
    match a.companion, b.companion with
    | some e, some f => return .flag (e = f)
    | _, _ => return .done
  | .encode v models => do
    match (← evalValue inFlight v).companion with
    | none => return .done
    | some e => return .encoded (← lift (encodeAlone e models))
  | .drop kind name => return .flag (← dropName kind name)
  | .expr name e => do
    let e ← evalExpr e
    setExpr name e
    return .expr e
  | .draft name op ty => do
    setDraft name ⟨op, ty, []⟩
    return .done
  | .append name e => do
    let e ← evalExpr e
    let b := (← namedDraft name).append e
    setDraft name b
    return .draft b
  | .prepend name e => do
    let e ← evalExpr e
    let b := (← namedDraft name).prepend e
    setDraft name b
    return .draft b
  | .inspectDraft name => return .draft (← namedDraft name)
  | .close name target => do
    let b ← namedDraft name
    let _ ← dropName .draft name
    let e ← mint b.close
    setExpr target e
    return .expr e
  | .reopen name op target => do
    let e ← namedExpr name
    let _ ← dropName .expr name
    match Draft.ofExpr? e op (e.heldAlone (inFlight ++ (← get).live)) with
    | some b =>
      setDraft target b
      return .reopened b.operands.length
    | none =>
      setExpr name e
      return .kept e
  | .sameExpr a b => do
    let a ← evalExpr a
    let b ← evalExpr b
    return .compared (a = b) (a.alike b)
  | .encodeExpr e models => do
    let e ← evalExpr e
    return .encoded (← lift (encodeAlone e models))
  | .newStore => do
    let stores := (← get).stores
    modify fun s => { s with stores := stores ++ [{}] }
    return .count stores.length
  | .cloneStore st => do
    let copy ← store st
    let stores := (← get).stores
    modify fun s => { s with stores := stores ++ [copy] }
    return .count stores.length
  | .storeInfo st => return .storeSize (← store st).size
  | .declare x v st => do
    let v ← evalValue inFlight v
    let (handle, s) := (← store st).declare v
    setStore st s
    setVar x handle
    return .declared handle s.size
  | .get x st => do
    let x ← var x
    let (v, version) ← lift (readVar (← store st) x)
    return .variable v version
  | .set x v st => do
    let v ← evalValue inFlight v
    let x ← var x
    let s ← build ((← store st).set x v)
    setStore st s
    let (v, version) ← lift (readVar s x)
    return .variable v version
  | .dump st => do
    let s ← store st
    return .dump ((← get).vars.map fun (name, x) => (name, readVar s x))
  | .openIf name guard => do
    let guard ← evalGuard inFlight guard
    setScope name (.conditional { guard })
    return .value guard
  | .beginThen scope st => do
    let c ← conditional scope
    let (b, c) := c.beginThen (← store st)
    setScope scope (.conditional c)
    return .flag (← lift b)
  | .beginElse scope st => do
    let (b, c) ← beginElseOn (← conditional scope) st
    setScope scope (.conditional c)
    return .flag (← lift b)
  | .finish scope st => do
    let (closed, c) ← finishOn (← conditional scope) st
    setScope scope (.conditional c)
    lift closed
    return .done
  | .openLoop name policy => do
    let config := (← get).config
    setScope name (.loop (policy.elim (.ofConfig config) ({ policy := · })))
    return .done
  | .unwind scope guard st => do
    let (more, n) ← unwindOnce inFlight scope guard st
    return .unwound more n
  | .track scope x => do
    let x ← var x
    match ← need scope ((← get).scopes.find? scope) with
    | .conditional c =>
      let (tracked, c) := c.track x
      setScope scope (.conditional c)
      lift tracked
    | .loop l =>
      let (tracked, l) := l.track x
      setScope scope (.loop l)
      lift tracked
    return .done
  | .askBound bound guard calls => do
    let guard ← evalGuard inFlight guard
    return .flags (Policy.askTimes (.bounded bound) guard calls)
  | .cond guard track yes no st => do
    let (b, c) ← beginNew inFlight guard track st
    let first ← if b then some <$> runSteps (c.held ++ inFlight) yes else pure none
    match no with
    | none =>
      lift (← finishOn c st).1
      return .arms first none
    | some no =>
      let (b, c) ← beginElseOn c st
      let b ← lift b
      let second ← if b then some <$> runSteps (c.held ++ inFlight) no else pure none
      lift (← finishOn c st).1
      return .arms first second
  | .loop scope guard body st => do
    let more := do return (← unwindOnce inFlight scope guard st).1
    return .bodies (← rounds more (runSteps inFlight body) roundLimit [])
  | .branch v => do
    let v ← evalGuard inFlight v
    let (b, path) ← mint ((← get).path.branch v)
    modify fun s => { s with path }
    return .flag b
  | .resetPath => do
    modify fun s => { s with path := s.path.reset }
    return .count (← get).path.constraints.length
  | .path => return .path (← get).path
  | .encodePath declared models => return .pathScript (encodePath (← get) declared models)
/-- Runs steps; a refused one does not stop the others. -/
def runSteps (inFlight : List Expr) : List Step → Run (List Answer)
  | [] => return []
  | step :: rest => do
    let answer ← settle (runStep inFlight step)
    return answer :: (← runSteps inFlight rest)
end

/-- The answers to the steps of a whole session. -/
def run (config : Config) (steps : List Step) : List Answer :=
  match (runSteps [] steps).run.run (.ofConfig config) with
  | (.ok answers, _) => answers
  | (.error r, _) => [.refused r]

end Symex.Session
