import MinimalistGrammar.CommandLine.Arguments
import MinimalistGrammar.Interface.Format
import MinimalistGrammar.Lexicon.Format
import MinimalistGrammar.Parse.Format
import MinimalistGrammar.Parse.Report

/-!
What a command line asks for: a report on each condition of a corpus, or on one of them.
-/

namespace MinimalistGrammar.CommandLine

/-- Reads a text under a path, or gives the reason why it cannot be read. -/
abbrev Reader (m : Type → Type) := String → m (Except String String)

/-- Why a command line cannot be carried out. -/
inductive RunError where
  | lexicon (path : String) (e : LexiconError)
  | corpus (path : String) (e : ConfigurationError)
  | options (e : ConfigurationError)
  | indexOutOfRange (index count : Nat)
deriving DecidableEq, Repr

namespace RunError

def message : RunError → String
  | lexicon path _ => s!"Failed to load lexicon {path}"
  | corpus path _ => s!"Failed to load corpus {path}"
  | options _ => "Invalid parse options"
  | indexOutOfRange index count => s!"Index {index} is out of range; the corpus has {count} conditions"

def cause : RunError → Option String
  | lexicon _ e => some e.message
  | corpus _ e | options e => some e.message
  | indexOutOfRange .. => none

end RunError

/-- The options with what the command line says instead. -/
def Arguments.override (a : Arguments) (o : ParseOptions) : ParseOptions where
  constrainsSentence := o.constrainsSentence && !a.has .noSentence
  constrainsLogicalForm := o.constrainsLogicalForm && !a.has .noLogicalForm
  allParses := o.allParses || a.has .all
  maxParses := (a.number? .maxParses).getD o.maxParses
  bounds := {
    emptyItems := (a.number? .maxEmpty).getD o.bounds.emptyItems
    movements := (a.number? .maxMovements).getD o.bounds.movements
    headMovements := (a.number? .maxHeadMovements).getD o.bounds.headMovements }
  timeout := (a.number? .timeout).or o.timeout
  locality := o.locality

/-- Conditions to be reported on, with their places in the corpus. -/
structure Task where
  grammar : Grammar
  conditions : List (Nat × Condition)
  outlined : Bool

namespace Task

def readLexicon (path : String) (text : Except String String) : Except RunError Lexicon :=
  match text with
  | .ok text => (Lexicon.ofText text).mapError (.lexicon path)
  | .error reason => .error (.lexicon path (.unreadable path reason))

def readCorpus (path : String) (text : Except String String) : Except RunError Corpus :=
  match text with
  | .ok text => (Corpus.ofText text).mapError (.corpus path)
  | .error reason => .error (.corpus path (.unreadable path reason))

def readOptions (path : String) (text : Except String String) : Except RunError ParseOptions :=
  match text with
  | .ok text => (ParseOptions.ofText text).mapError .options
  | .error reason => .error (.options (.unreadable path reason))

/-- The conditions that are asked for. -/
def select (a : Arguments) (c : Corpus) : Except RunError (List (Nat × Condition)) :=
  let all := c.conditions.zipIdx.map fun (condition, i) => (i, condition)
  match a.number? .index with
  | none => .ok all
  | some index =>
    if index < c.conditions.length then .ok (all.filter (·.1 = index))
    else .error (.indexOutOfRange index c.conditions.length)

/-- Reads what the command line names: the lexicon, the corpus, and the options if there are some. -/
def ofArguments {m : Type → Type} [Monad m] (read : Reader m) (a : Arguments) :
    m (Except RunError Task) := do
  match readLexicon a.lexicon (← read a.lexicon) with
  | .error e => return .error e
  | .ok lexicon =>
    match readCorpus a.corpus (← read a.corpus) with
    | .error e => return .error e
    | .ok corpus =>
      let options ← (match a.options with
        | some path => do return readOptions path (← read path)
        | none => return .ok {} : m (Except RunError ParseOptions))
      return do
        let options := a.override (← options)
        return {
          grammar := { lexicon, options }
          conditions := ← select a corpus
          outlined := a.has .tree }

/-- The report on one condition, and an empty line. -/
def report (t : Task) (index : Nat) (c : Condition) : String :=
  let heading := "#" ++ toString index ++ " " ++ c.sentence.elim "<no PF target>" (" ".intercalate ·)
  let body :=
    match t.grammar.parse c with
    | .ok outcome => outcome.report t.outlined
    | .error e => "  ERROR: " ++ e.message ++ "\n"
  heading ++ "\n" ++ body ++ "\n"

end Task

end MinimalistGrammar.CommandLine
