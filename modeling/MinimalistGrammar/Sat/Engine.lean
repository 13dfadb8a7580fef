import MinimalistGrammar.Sat.Formula

/-!
What a session expects of the engine that decides its clauses: it takes clauses one by one and answers
searches, and either may fail.
-/

namespace MinimalistGrammar.Sat

/-- How the worker that runs an engine was found to be gone. -/
inductive Disconnection where
  | commandsClosed
  | repliesClosed
  | exited
deriving DecidableEq, Repr

/-- Failures of the solving machinery. Unsatisfiability and timeouts are answers, not failures. -/
inductive SolverError where
  /-- The engine refused a clause or failed in a search. -/
  | engineFailed (reason : String)
  | workerGone (how : Disconnection)
  /-- An earlier call timed out, so the session takes no more. -/
  | abandoned
deriving DecidableEq, Repr

def Disconnection.message : Disconnection → String
  | commandsClosed => "sending on a closed channel"
  | repliesClosed => "receiving on a closed channel"
  | exited => "worker exited"

def SolverError.message : SolverError → String
  | engineFailed reason => "SAT backend failed: " ++ reason
  | workerGone how => "solver session is no longer available: " ++ how.message
  | abandoned => "solver session timed out earlier and cannot be reused"

/-- What a search that ended has found. -/
inductive Verdict where
  | sat (model : Model)
  | unsat
  /-- The search was stopped from outside. -/
  | interrupted
deriving DecidableEq, Repr

/-- What the caller of a search sees of it. -/
inductive Response where
  | reply (answer : Except SolverError Verdict)
  /-- No answer comes while the caller waits. -/
  | silence
  /-- The engine broke down, and its worker with it. -/
  | crash

/-- An incremental solving engine with state `ε`. -/
class Engine (ε : Type) where
  /-- Takes a clause for this and every later search. -/
  addClause : Clause → ε → Except SolverError Unit × ε
  /-- Decides the clauses taken so far; a model covers that many variables. -/
  solve : Nat → ε → Response × ε

/-- Hands over clauses in order, up to the first that is refused. -/
def Engine.load {ε : Type} [Engine ε] : List Clause → ε → Option SolverError × ε
  | [], e => (none, e)
  | c :: rest, e =>
    match Engine.addClause c e with
    | (.ok _, e) => load rest e
    | (.error err, e) => (some err, e)

end MinimalistGrammar.Sat
