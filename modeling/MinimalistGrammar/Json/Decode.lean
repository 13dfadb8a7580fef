import MinimalistGrammar.Json.Reader

/-!
Reading data out of JSON values. A record may be written as an object, whose unknown members are passed
over and whose known ones come at most once, or as an array of its fields in order.
-/

namespace MinimalistGrammar.Json

def string? : Json → Option String
  | string s => s
  | _ => none

def bool? : Json → Option Bool
  | bool b => some b
  | _ => none

/-- The least number that does not fit into a machine word. -/
def wordBound : Nat := 0x10000000000000000

/-- A number without sign, point and exponent that fits into a machine word. -/
def word64? : Json → Option Nat
  | number n => n.toNat?.filter (· < wordBound)
  | _ => none

def list? {α : Type} (item? : Json → Option α) : Json → Option (List α)
  | array items => items.mapM item?
  | _ => none

/-- Reads a value that may be `null`. -/
def nullable? {α : Type} (value? : Json → Option α) : Json → Option (Option α)
  | null => some none
  | v => (value? v).map some

/-- The members of an object whose keys are all strings of characters. -/
def members? : Json → Option (List (String × Json))
  | object members => members.mapM fun (k, v) => k.map fun k => (k, v)
  | _ => none

/-- The member under one of the names, if there is one; more than one is a failure. -/
def member? (names : List String) (members : List (String × Json)) : Option (Option Json) :=
  match members.filter fun m => m.1 ∈ names with
  | [] => some none
  | [m] => some (some m.2)
  | _ => none

/-- A record's fields in order, each by its names, where they are given. -/
def fields? (names : List (List String)) : Json → Option (List (Option Json))
  | array items =>
    if items.length ≤ names.length then
      some (items.map some ++ List.replicate (names.length - items.length) none)
    else none
  | v => v.members? >>= fun members => names.mapM fun ns => member? ns members

/-- Reads a field that must be given. -/
def required? {α : Type} (value? : Json → Option α) (field : Option Json) : Option α := field >>= value?

/-- Reads a field that stands for a default when it is not given. -/
def optional? {α : Type} (default : α) (value? : Json → Option α) : Option Json → Option α
  | none => some default
  | some v => value? v

/-- One of a fixed set of names: a string, or an object whose only member has that name and no value. -/
def variant? (isUnit : Json → Bool) : Json → Option String
  | string s => s
  | object [(some k, v)] => if isUnit v then some k else none
  | _ => none

/-- A value of one of several shapes: the name of the shape, under a key or in front of a list, and what is
left. -/
def tagged? (key : String) : Json → Option (String × Json)
  | array (tag :: rest) => tag.string?.map fun tag => (tag, array rest)
  | v => do
    let members ← v.members?
    let tag ← (← member? [key] members) >>= string?
    return (tag, mkObject (members.filter (·.1 ≠ key)))

def isNull : Json → Bool
  | null => true
  | _ => false

/-- Nothing, written as `null` or as an object without members. -/
def isUnit : Json → Bool
  | null => true
  | object members => members.isEmpty
  | _ => false

/-- The value of a text, if all of it can be represented. -/
def parseSound? (s : String) : Option Json := (parse? s).filter (·.isSound maxDepth)

end MinimalistGrammar.Json
