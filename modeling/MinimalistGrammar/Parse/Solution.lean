import MinimalistGrammar.Derivation.Placement
import MinimalistGrammar.Derivation.Text
import MinimalistGrammar.Parse.Problem
import MinimalistGrammar.Sat.Enumeration
import MinimalistGrammar.Sat.Search
import MinimalistGrammar.Selection.Demand
import MinimalistGrammar.Selection.Derivation

/-!
Solving a parse: one derivation, or all of them up to a number, each once. Assignments that differ only in
how covert items are numbered give the same derivation; such repeats are passed over.
-/

namespace MinimalistGrammar

open MinimalistGrammar.Sat

/-- What one search comes to. -/
inductive Solution where
  | found (d : Derivation)
  | notFound
  /-- No answer came in time, so nothing is known. -/
  | timedOut
deriving DecidableEq, Repr

def Solution.label : Solution → String
  | found _ => "SAT"
  | notFound => "UNSAT"
  | timedOut => "TIMEOUT"

namespace Problem

/-- The words are pronounced as the sentence has them, if that is required. -/
def checkSentence (p : Problem) (d : Derivation) : Except Inconsistency Unit :=
  match p.sentence with
  | some expected =>
    if d.pronounced = expected then .ok () else .error (.linearization expected d.pronounced)
  | none => .ok ()

/-- The derivation that an assignment describes. -/
def extract (p : Problem) (a : Assignment) : Except Inconsistency Derivation := do
  let sel ← Selection.ofAssignment p.schema p.encoding a
  sel.check
  let d ← sel.derivation
  p.checkSentence d
  sel.checkLogicalForm p.requirements
  return d

/-- Whether a model says what the derivation is. -/
def solutionOf (p : Problem) : Outcome → Except ParseError Solution
  | .sat m => ((p.extract m.assignment).map Solution.found).mapError .inconsistency
  | .unsat => .ok .notFound
  | .timeout => .ok .timedOut

def solveIn {ε : Type} [Engine ε] (p : Problem) (session : Session ε) : Except ParseError Solution := do
  p.solutionOf (← session.solve.1.mapError .solver)

def solve (p : Problem) : Except ParseError Solution := p.solveIn (Session.start p.formula p.timeout)

end Problem

/-- An enumeration of derivations. -/
structure Parses (ε : Type) where
  problem : Problem
  enumeration : Enumeration ε
  /-- The derivations found so far, in order. -/
  found : List Derivation := []

namespace Parses

variable {ε : Type} [Engine ε]

/-- The derivations in a session, at most `limit` of them. -/
def ofSession (problem : Problem) (session : Session ε) (limit : Option Nat) : Parses ε :=
  { problem, enumeration := .ofSession session problem.encoding.projection limit }

/-- Adds a derivation, or gives its model back to the limit if it reads like one found before. -/
def add (d : Derivation) (ps : Parses ε) : Parses ε :=
  if toString d ∈ ps.found.map toString then { ps with enumeration := ps.enumeration.refund }
  else { ps with found := ps.found ++ [d] }

/-- Looks at one more model; nothing if there is none. -/
def step (ps : Parses ε) : Option (Except ParseError (Parses ε)) × Parses ε :=
  let (model, enumeration) := ps.enumeration.next
  let ps := { ps with enumeration }
  match model with
  | none => (none, ps)
  | some (.error e) => (some (.error (.solver e)), ps)
  | some (.ok m) =>
    match ps.problem.extract m.assignment with
    | .ok d => (some (.ok (ps.add d)), ps)
    | .error e => (some (.error (.inconsistency e)), ps)

/-- Looks at up to `n` models, until there are no more or one fails. -/
def run : Nat → Parses ε → Except ParseError (Parses ε)
  | 0, ps => .ok ps
  | n + 1, ps =>
    match ps.step with
    | (none, ps) => .ok ps
    | (some (.ok ps), _) => run n ps
    | (some (.error e), _) => .error e

/-- No more models than this can differ on the projection, and one look finds the end. -/
def maxModels (ps : Parses ε) : Nat := Nat.pow 2 ps.enumeration.projection.length + 1

def runAll (ps : Parses ε) : Except ParseError (Parses ε) := ps.run ps.maxModels

end Parses

/-- What a parse comes to. -/
structure ParseOutcome where
  /-- In the order found, each once. -/
  derivations : List Derivation
  termination : Termination
deriving DecidableEq, Repr

namespace ParseOutcome

def isSatisfiable (o : ParseOutcome) : Bool := !o.derivations.isEmpty

/-- There is no derivation within the bounds. -/
def isUnsatisfiable (o : ParseOutcome) : Bool :=
  o.derivations.isEmpty && o.termination == .exhausted

def timedOut (o : ParseOutcome) : Bool := o.termination == .timedOut

def ofSolution : Solution → ParseOutcome
  | .found d => ⟨[d], .limitReached⟩
  | .notFound => ⟨[], .exhausted⟩
  | .timedOut => ⟨[], .timedOut⟩

end ParseOutcome

namespace Grammar

/-- Parses a condition with an engine of one's own. -/
def parseWith {ε : Type} [Engine ε] (start : Formula → Option Nat → Session ε) (g : Grammar)
    (c : Condition) : Except ParseError ParseOutcome := do
  let p ← g.prepare c
  let session := start p.formula p.timeout
  if g.options.allParses then
    let ps ← (Parses.ofSession p session (some g.options.maxParses)).runAll
    return ⟨ps.found, ps.enumeration.termination.getD .exhausted⟩
  else
    return .ofSolution (← p.solveIn session)

def parse (g : Grammar) (c : Condition) : Except ParseError ParseOutcome :=
  g.parseWith Session.start c

end Grammar

end MinimalistGrammar
