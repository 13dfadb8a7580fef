import MinimalistGrammar.Bounds
import MinimalistGrammar.Locality

/-!
How a parse is to be done: which interfaces count, how many derivations are wanted, within which bounds, how
long a search may take, and which locality condition holds.
-/

namespace MinimalistGrammar

structure ParseOptions where
  /-- The words come in the order of the sentence. -/
  constrainsSentence : Bool := true
  /-- The derivation has the logical form. -/
  constrainsLogicalForm : Bool := true
  /-- All derivations are wanted and not just one. -/
  allParses : Bool := false
  /-- How many derivations there may be when all are wanted. -/
  maxParses : Nat := 3
  bounds : Bounds := {}
  /-- For each search, in milliseconds; no limit if absent. -/
  timeout : Option Nat := none
  locality : Locality := .shortestMove
deriving DecidableEq, Repr, Inhabited

namespace ParseOptions

/-- The longest timeout, in milliseconds. -/
def maxTimeout : Nat := 0xFFFFFFFFFFFFFFFF

/-- Asks for all derivations, up to a number. -/
def withAllParses (maxParses : Nat) (o : ParseOptions) : ParseOptions :=
  { o with allParses := true, maxParses }

/-- Sets a timeout in whole milliseconds, the longest one if it would be longer. -/
def withTimeout (seconds nanoseconds : Nat) (o : ParseOptions) : ParseOptions :=
  { o with timeout := some (min (1000 * seconds + nanoseconds / 1000000) maxTimeout) }

/-- Some interface counts, and if all parses are wanted some are. -/
def validate (o : ParseOptions) : Except ConfigurationError Unit :=
  if !o.constrainsSentence && !o.constrainsLogicalForm then .error .unconstrained
  else if o.allParses && o.maxParses = 0 then .error .zeroParseLimit
  else .ok ()

end ParseOptions

end MinimalistGrammar
