import MinimalistGrammar.Sat.Session

/-!
The models of a formula, one for each assignment of a projection. After a model its projection is blocked,
so two models always differ on the projection, and variables outside it bring no repeats.
-/

namespace MinimalistGrammar.Sat

/-- Why an enumeration ended. -/
inductive Termination where
  /-- The last search found no further model. -/
  | exhausted
  /-- As many models came as were asked for. -/
  | limitReached
  /-- The last search did not answer in time. -/
  | timedOut
deriving DecidableEq, Repr

structure Enumeration (ε : Type) where
  session : Session ε
  projection : List Literal
  /-- How many models may still come; any number if absent. -/
  remaining : Option Nat
  termination : Option Termination := none
  /-- The session has been ended. -/
  released : Bool := false

/-- The clause that excludes the projection of a model. -/
def blockingClause (projection : List Literal) (m : Model) : Clause :=
  projection.map fun l => if m.value l then -l else l

namespace Enumeration

variable {ε : Type} [Engine ε]

def ofSession (session : Session ε) (projection : List Literal) (limit : Option Nat) : Enumeration ε :=
  { session, projection, remaining := limit }

/-- Ends the session and no more. -/
def release (e : Enumeration ε) : Enumeration ε :=
  { e with session := e.session.close, released := true }

def finish (termination : Termination) (e : Enumeration ε) : Enumeration ε :=
  { e.release with termination := some termination }

/-- Excludes the projection of a model just found, and counts it. -/
def accept (m : Model) (e : Enumeration ε) : Except SolverError Model × Enumeration ε :=
  match e.session.block (blockingClause e.projection m) with
  | (.ok _, session) => (.ok m, { e with session, remaining := e.remaining.map (· - 1) })
  | (.error err, session) => (.error err, release { e with session })

/-- The next model. The limit is looked at before the search; after an error nothing more comes. -/
def next (e : Enumeration ε) : Option (Except SolverError Model) × Enumeration ε :=
  if e.termination.isSome then (none, e)
  else if e.remaining = some 0 then (none, e.finish .limitReached)
  else if e.released then (none, e)
  else
    match e.session.solve with
    | (.ok (.sat m), session) => (accept m { e with session }).map some id
    | (.ok .unsat, session) => (none, finish .exhausted { e with session })
    | (.ok .timeout, session) => (none, finish .timedOut { e with session })
    | (.error err, session) => (some (.error err), release { e with session })

/-- Takes back the count of one model. -/
def refund (e : Enumeration ε) : Enumeration ε := { e with remaining := e.remaining.map (· + 1) }

end Enumeration

end MinimalistGrammar.Sat
