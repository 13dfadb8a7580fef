import MinimalistGrammar.Lexicon.Error
import MinimalistGrammar.Sat.Engine
import MinimalistGrammar.Text.Quoted

/-!
Why a parse fails. That there is no derivation, and that a search took too long, are results and not
failures.
-/

namespace MinimalistGrammar

/-- The bounds leave no room for a complete derivation. -/
inductive BoundError where
  | emptyItems (required available : Nat)
deriving DecidableEq, Repr

/-- Options or an interface condition that cannot be used. -/
inductive ConfigurationError where
  /-- Both interfaces are off, or have nothing to constrain. -/
  | unconstrained
  /-- The condition has neither a sentence nor a logical form. -/
  | emptyCondition
  | noWords
  /-- The words of the logical form are not those of the sentence. -/
  | wordsDiffer (sentence words : List String)
  /-- The logical form speaks of a word that does not occur. -/
  | unknownAnchor (word : String)
  /-- The logical form speaks of a word that occurs more than once. -/
  | ambiguousAnchor (word : String) (count : Nat)
  /-- All parses were asked for, but none of them. -/
  | zeroParseLimit
  | undecodable
  | unreadable (path reason : String)
deriving DecidableEq, Repr

/-- What keeps a choice of items and links from being a derivation. -/
inductive Inconsistency where
  | slotChoice (slot count : Nat)
  /-- A feature is not checked as often as it has to be. -/
  | checkCount (label feature : String) (count : Nat)
  | incompatible (trigger target : String)
  | rootCount (count : Nat)
  | disconnected (label : String)
  | unplaced (label : String)
  /-- A phrase moves to a place that is not above it. -/
  | unlicensedMovement (label : String)
  | headMovement (label : String)
  | boundViolated (bound : String) (limit used : Nat)
  /-- The words come in another order than the sentence has them. -/
  | linearization (expected found : List String)
  | logicalForm (requirement : String)
deriving DecidableEq, Repr

inductive ParseError where
  | lexicon (e : LexiconError)
  | bound (e : BoundError)
  | configuration (e : ConfigurationError)
  | solver (e : Sat.SolverError)
  | inconsistency (e : Inconsistency)
deriving DecidableEq, Repr

def BoundError.message : BoundError → String
  | emptyItems required available =>
    s!"a complete derivation needs at least {required} empty lexical item(s) " ++
      s!"but max_num_empty_lexical_items is {available}"

def ConfigurationError.message : ConfigurationError → String
  | unconstrained => "no interface constraints remain: PF and LF are disabled or have no target"
  | emptyCondition => "interface condition has neither a PF nor an LF target"
  | noWords => "interface condition has no words to parse"
  | wordsDiffer sentence words =>
    s!"LF words {Text.quotedList words} do not match the PF target {Text.quotedList sentence}"
  | unknownAnchor word => s!"LF target mentions '{word}', which is not in the sentence"
  | ambiguousAnchor word count =>
    s!"LF target mentions '{word}', which occurs {count} times in the sentence"
  | zeroParseLimit => "max_parses must be positive when extracting all parses"
  | undecodable => "configuration could not be decoded"
  | unreadable path reason => s!"could not read '{path}': {reason}"

def Inconsistency.message : Inconsistency → String
  | slotChoice slot count => s!"slot {slot} has {count} lexical choices"
  | checkCount label feature count => s!"feature {feature} of '{label}' is checked {count} times"
  | incompatible trigger target => s!"'{trigger}' cannot check '{target}'"
  | rootCount count => s!"derivation has {count} roots"
  | disconnected label => s!"a point of '{label}' is not connected to the root"
  | unplaced label => s!"'{label}' is part of the derivation but has no place in its layout"
  | unlicensedMovement label =>
    s!"movement of '{label}' is not licensed from above its previous position"
  | headMovement label => s!"head movement into '{label}' is not well formed"
  | boundViolated bound limit used => s!"{bound} is {limit} but the derivation uses {used}"
  | linearization expected found =>
    s!"derivation pronounces {Text.quotedList found} instead of {Text.quotedList expected}"
  | logicalForm requirement => s!"derivation does not satisfy the LF target: {requirement}"

def ParseError.message : ParseError → String
  | lexicon e => e.message
  | bound e => e.message
  | configuration e => e.message
  | solver e => e.message
  | inconsistency e => e.message

end MinimalistGrammar
