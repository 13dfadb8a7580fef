import MinimalistGrammar.Derivation.Predication
import MinimalistGrammar.Derivation.Usage
import MinimalistGrammar.Parse.Solution

/-!
The report on a parse, for readers: its outcome, and for each derivation the yield, the tree, what it uses
and what it says.
-/

namespace MinimalistGrammar

/-- The lines of a text. A carriage return before the end of a line belongs to it. -/
def linesOf (s : String) : List String :=
  let lines := s.splitOn "\n"
  let ended := lines.dropLast.map fun l => if l.endsWith "\r" then (l.dropEnd 1).toString else l
  match lines.getLast? with
  | some "" | none => ended
  | some last => ended ++ [last]

namespace Sat.Termination

def name : Termination → String
  | exhausted => "Exhausted"
  | limitReached => "LimitReached"
  | timedOut => "TimedOut"

end Sat.Termination

namespace ItemUsage

def line (u : ItemUsage) : String := "      " ++ u.label ++ " /" ++ u.form.getD "ε" ++ "/ x" ++ toString u.count

end ItemUsage

namespace Derivation

/-- The lines on one derivation, as an outline or in brackets. -/
def report (outlined : Bool) (d : Derivation) : List String :=
  let usage := d.usage
  ["    yield: " ++ " ".intercalate d.pronounced] ++
    (if outlined then (linesOf d.pretty).map ("    " ++ ·) else ["    " ++ toString d]) ++
    [s!"    used: {usage.emptyItems} empty items, {usage.movements} movements, " ++
      s!"{usage.headMovements} head movements"] ++
    usage.items.map (·.line) ++ d.predications.map ("    " ++ toString ·)

end Derivation

namespace ParseOutcome

def label (o : ParseOutcome) : String :=
  if o.isSatisfiable then "SAT" else if o.timedOut then "TIMEOUT" else "UNSAT"

def lines (outlined : Bool) (o : ParseOutcome) : List String :=
  s!"  {o.label} ({o.derivations.length} derivations, {o.termination.name})" ::
    o.derivations.zipIdx.flatMap fun (d, i) => s!"  parse {i + 1}" :: d.report outlined

/-- The report as one text, every line with its end. -/
def report (outlined : Bool) (o : ParseOutcome) : String :=
  String.join ((o.lines outlined).map (· ++ "\n"))

end ParseOutcome

end MinimalistGrammar
