import MinimalistGrammar.Sat.Engine

/-!
A session: one formula, loaded into an engine that runs beside its caller. Commands wait in one queue and
replies in another. A solve command always brings a reply; a block command brings one only when the clause
is refused; and once loading has failed, every command brings that failure.
-/

namespace MinimalistGrammar.Sat

/-- What one solve call comes to. -/
inductive Outcome where
  | sat (model : Model)
  | unsat
  /-- No answer came in time, so nothing is known. -/
  | timeout
deriving DecidableEq, Repr

def Outcome.isSat : Outcome → Bool
  | sat _ => true
  | _ => false

def Outcome.label : Outcome → String
  | sat _ => "SAT"
  | unsat => "UNSAT"
  | timeout => "TIMEOUT"

inductive Command where
  | solve
  | block (clause : Clause)
deriving DecidableEq, Repr

abbrev Reply := Except SolverError Verdict

/-- The engine's side of a session. -/
inductive Worker where
  | ready
  /-- In a search that does not answer. -/
  | searching
  | gone
deriving DecidableEq, Repr

structure Session (ε : Type) where
  engine : ε
  numVars : Nat
  /-- The failure of loading the formula, if it failed. -/
  loadError : Option SolverError := none
  /-- Sent and not yet served, oldest first. -/
  commands : List Command := []
  /-- Not yet read, oldest first. -/
  replies : List Reply := []
  worker : Worker := .ready
  /-- How long a call waits, in milliseconds; forever if absent. -/
  timeout : Option Nat := none
  /-- A call has timed out. -/
  abandoned : Bool := false

namespace Session

variable {ε : Type} [Engine ε]

/-- Loads a formula into an engine. -/
def ofFormula (f : Formula) (timeout : Option Nat) (engine : ε) : Session ε :=
  let (loadError, engine) := Engine.load f.clauses.toList engine
  { engine, numVars := f.numVars, loadError, timeout }

/-- Queues a command, unless nobody is left to serve it. -/
def send (command : Command) (s : Session ε) : Except SolverError Unit × Session ε :=
  if s.abandoned then (.error .abandoned, s)
  else if s.worker = .gone then (.error (.workerGone .commandsClosed), s)
  else (.ok (), { s with commands := s.commands ++ [command] })

/-- What a command does to the engine, and the reply it brings. -/
def execute (command : Command) (s : Session ε) : Session ε :=
  match s.loadError, command with
  | some err, _ => { s with replies := s.replies ++ [.error err] }
  | none, .solve =>
    match Engine.solve s.numVars s.engine with
    | (.reply answer, engine) => { s with engine, replies := s.replies ++ [answer] }
    | (.silence, engine) => { s with engine, worker := .searching }
    | (.crash, engine) => { s with engine, worker := .gone, commands := [] }
  | none, .block clause =>
    match Engine.addClause clause s.engine with
    | (.ok _, engine) => { s with engine }
    | (.error err, engine) => { s with engine, replies := s.replies ++ [.error err] }

/-- One step of the worker: it serves the oldest command if it is free to. -/
def serve (s : Session ε) : Session ε :=
  match s.worker, s.commands with
  | .ready, command :: rest => execute command { s with commands := rest }
  | _, _ => s

/-- The worker serves what is queued, as far as it gets. -/
def serveAll (s : Session ε) : Session ε := s.commands.foldl (fun s _ => s.serve) s

/-- A reply as the caller of a solve understands it. -/
def outcomeOf : Reply → Except SolverError Outcome
  | .ok (.sat model) => .ok (.sat model)
  | .ok .unsat => .ok .unsat
  | .ok .interrupted => .error (.engineFailed "search stopped before the session interrupted it")
  | .error err => .error err

/-- The call that reads comes back: there is a reply for it, or none can come, or its time is limited. -/
def Returns (s : Session ε) : Prop := s.replies ≠ [] ∨ s.worker = .gone ∨ s.timeout.isSome

instance (s : Session ε) : Decidable s.Returns :=
  inferInstanceAs (Decidable (s.replies ≠ [] ∨ s.worker = .gone ∨ s.timeout.isSome))

/-- Reads the oldest reply. When none will come, a broken worker is reported as lost, and a searching one
is given up with the session. A call whose time is not limited goes on waiting for a searching worker, so what stands here for
it is not seen by any caller; `Returns` tells these calls apart. -/
def receive (s : Session ε) : Except SolverError Outcome × Session ε :=
  match s.replies with
  | reply :: rest => (outcomeOf reply, { s with replies := rest })
  | [] =>
    if s.worker = .gone then
      (.error (.workerGone (if s.timeout.isSome then .exited else .repliesClosed)), s)
    else (.ok .timeout, { s with abandoned := true })

/-- Decides the formula together with the clauses blocked so far. -/
def solve (s : Session ε) : Except SolverError Outcome × Session ε :=
  match s.send .solve with
  | (.ok _, s) => s.serveAll.receive
  | (.error err, s) => (.error err, s)

/-- Adds a clause for all later calls. -/
def block (clause : Clause) (s : Session ε) : Except SolverError Unit × Session ε :=
  s.send (.block clause)

/-- Ends the session. A search that is still on is stopped, and what is queued is served. -/
def close (s : Session ε) : Session ε :=
  match s.worker with
  | .searching => serveAll { s with worker := .ready }
  | _ => s.serveAll

end Session

end MinimalistGrammar.Sat
