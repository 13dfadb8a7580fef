/-!
Command lines. A switch is given by its name or its letter, and letters may be joined; a setting is followed
by its value, or joined to it by an equals sign. Each is given once at most. The lexicon and the corpus have
to be named.

A value is not looked at before the next argument has been read as far as its name, so that a later argument
without meaning is reported before a value that cannot be used.
-/

namespace MinimalistGrammar.CommandLine

/-- What is wrong with a command line; or help is asked for. -/
inductive UsageError where
  | helpRequested
  | unknownArgument
  /-- A value is missing or empty. -/
  | missingValue
  /-- A value is no number that can be represented. -/
  | invalidValue
  /-- A switch has a value. -/
  | unneededValue
  | repeated
  /-- The lexicon or the corpus is not named. -/
  | missingArgument
deriving DecidableEq, Repr

def UsageError.message : UsageError → String
  | helpRequested => "parses a corpus of interface conditions with a minimalist grammar"
  | unknownArgument => "unknown argument"
  | missingValue => "a value is missing"
  | invalidValue => "a value is not a number"
  | unneededValue => "a switch takes no value"
  | repeated => "an argument is given more than once"
  | missingArgument => "lexicon and corpus have to be given"

/-- An argument without value. -/
inductive Switch where
  | all
  | noSentence
  | noLogicalForm
  | tree
  | help
deriving DecidableEq, Repr

inductive PathSetting where
  | lexicon
  | corpus
  | options
deriving DecidableEq, Repr

inductive NumberSetting where
  | maxParses
  | maxEmpty
  | maxMovements
  | maxHeadMovements
  | timeout
  | index
deriving DecidableEq, Repr

inductive Setting where
  | path (s : PathSetting)
  | number (s : NumberSetting)
deriving DecidableEq, Repr

inductive Name where
  | switch (s : Switch)
  | setting (s : Setting)
deriving DecidableEq, Repr

/-- The names that come after two hyphens. -/
def names : List (String × Name) :=
  [("lexicon", .setting (.path .lexicon)), ("corpus", .setting (.path .corpus)),
    ("options", .setting (.path .options)), ("all", .switch .all),
    ("max-parses", .setting (.number .maxParses)), ("no-pf", .switch .noSentence),
    ("no-lf", .switch .noLogicalForm), ("max-empty", .setting (.number .maxEmpty)),
    ("max-movements", .setting (.number .maxMovements)),
    ("max-head-movements", .setting (.number .maxHeadMovements)),
    ("timeout-ms", .setting (.number .timeout)), ("index", .setting (.number .index)),
    ("tree", .switch .tree), ("help", .switch .help)]

/-- The letters that come after one hyphen. -/
def letters : List (Char × Switch) := [('a', .all), ('t', .tree), ('h', .help)]

/-- What has been read of a command line. -/
structure Draft where
  switches : List Switch := []
  paths : List (PathSetting × String) := []
  numbers : List (NumberSetting × Nat) := []
  /-- A setting whose value has not been looked at, with the value if it has come. -/
  pending : Option (Setting × Option String) := none
deriving DecidableEq, Repr

/-- A number in decimal digits, perhaps after a plus sign, that fits into a machine word. -/
def number? (s : String) : Option Nat :=
  let digits := match s.toList with
    | '+' :: rest => rest
    | chars => chars
  if digits.isEmpty || !digits.all Char.isDigit then none
  else
    let n := digits.foldl (fun n c => 10 * n + (c.toNat - '0'.toNat)) 0
    if n < 0x10000000000000000 then some n else none

namespace Draft

/-- Gives a setting its value. That it has one already is reported before the value is looked at. -/
def assign (d : Draft) : Setting → String → Except UsageError Draft
  | .path s, value =>
    if d.paths.any (·.1 = s) then .error .repeated
    else if value.isEmpty then .error .missingValue
    else .ok { d with paths := d.paths ++ [(s, value)] }
  | .number s, value =>
    if d.numbers.any (·.1 = s) then .error .repeated
    else
      match number? value with
      | some n => .ok { d with numbers := d.numbers ++ [(s, n)] }
      | none => .error .invalidValue

/-- Looks at the value that is pending. -/
def settle (d : Draft) : Except UsageError Draft :=
  match d.pending with
  | none => .ok d
  | some (_, none) => .error .missingValue
  | some (s, some value) => { d with pending := none }.assign s value

def turnOn (s : Switch) (d : Draft) : Except UsageError Draft := do
  let d ← d.settle
  if s = .help then throw .helpRequested
  if s ∈ d.switches then throw .repeated
  return { d with switches := d.switches ++ [s] }

/-- Reads switches by their letters. -/
def turnOnAll : List Char → Draft → Except UsageError Draft
  | [], d => .ok d
  | c :: rest, d =>
    match letters.lookup c with
    | some s => d.turnOn s >>= turnOnAll rest
    | none => .error .unknownArgument

/-- Reads a named argument. -/
def named (name : String) (value : Option String) (d : Draft) : Except UsageError Draft :=
  match names.lookup name, value with
  | none, _ => .error .unknownArgument
  | some (.switch s), none => d.turnOn s
  | some (.switch _), some _ => .error .unneededValue
  | some (.setting s), some value => d.settle >>= fun d => d.assign s value
  | some (.setting s), none => d.settle.map fun d => { d with pending := some (s, none) }

/-- Reads an argument without hyphens: the value of the setting before it. -/
def plain (arg : String) (d : Draft) : Except UsageError Draft :=
  match d.pending with
  | some (s, none) => .ok { d with pending := some (s, some arg) }
  | _ => .error .unknownArgument

/-- Reads one argument. A single hyphen is a plain argument. -/
def read (arg : String) (d : Draft) : Except UsageError Draft :=
  match arg.toList with
  | '-' :: '-' :: rest =>
    let name := String.ofList (rest.takeWhile (· ≠ '='))
    match rest.dropWhile (· ≠ '=') with
    | [] => d.named name none
    | _ :: value => d.named name (some (String.ofList value))
  | '-' :: c :: rest => d.turnOnAll (c :: rest)
  | _ => d.plain arg

/-- Reads all arguments. Two hyphens alone end them. -/
def readAll : List String → Draft → Except UsageError Draft
  | [], d => d.settle
  | "--" :: [], d => d.settle
  | "--" :: _ :: _, _ => .error .unknownArgument
  | arg :: rest, d => d.read arg >>= readAll rest

end Draft

/-- A command line that can be carried out. -/
structure Arguments where
  lexicon : String
  corpus : String
  options : Option String
  switches : List Switch
  numbers : List (NumberSetting × Nat)
deriving DecidableEq, Repr

namespace Arguments

def has (a : Arguments) (s : Switch) : Bool := s ∈ a.switches

def number? (a : Arguments) (s : NumberSetting) : Option Nat := a.numbers.lookup s

def ofList (args : List String) : Except UsageError Arguments := do
  let d ← ({} : Draft).readAll args
  match d.paths.lookup .lexicon, d.paths.lookup .corpus with
  | some lexicon, some corpus =>
    return ⟨lexicon, corpus, d.paths.lookup .options, d.switches, d.numbers⟩
  | _, _ => throw .missingArgument

end Arguments

end MinimalistGrammar.CommandLine
