import MinimalistGrammar.Json.Decode
import MinimalistGrammar.Lexicon.Basic

/-!
Lexicons in JSON: an object from labels to entries. An entry is a list of features, for a covert item, or an
object with features, form and meaning. A feature is its compact notation, or an object with name and
polarity.

Written items use the object forms throughout.
-/

namespace MinimalistGrammar

namespace Polarity

def toJson (p : Polarity) : Json := .ofString p.name

def ofJson? (v : Json) : Option Polarity := v.variant? Json.isNull >>= ofName?

end Polarity

namespace Feature

def toJson (f : Feature) : Json :=
  .mkObject ([("name", .ofString f.name), ("polarity", f.polarity.toJson)] ++
    if f.movesHead then [("head_movement", .ofBool true)] else [])

/-- A feature given by its parts: the name is not empty, and only selectors attract heads. -/
def ofParts? (name : String) (polarity : Polarity) (movesHead : Bool) : Option Feature :=
  if name.isEmpty || (movesHead && polarity != .selector) then none else some ⟨name, polarity, movesHead⟩

def ofJson? : Json → Option Feature
  | .string s => s >>= ofCompact?
  | .object members => do
    let members ← (Json.object members).members?
    let name ← (← Json.member? ["name"] members) >>= Json.string?
    let polarity ← (← Json.member? ["polarity"] members) >>= Polarity.ofJson?
    let movesHead ← Json.optional? false Json.bool? (← Json.member? ["head_movement"] members)
    ofParts? name polarity movesHead
  | _ => none

/-- Reads one feature from a text. -/
def ofText (text : String) : Except LexiconError Feature :=
  match Json.parseSound? text >>= ofJson? with
  | some f => .ok f
  | none => .error .undecodable

end Feature

namespace Item

def toJson (item : Item) : Json :=
  .mkObject ([("label", .ofString item.label), ("features", .array (item.features.map Feature.toJson))] ++
    (item.form.map fun s => ("pf", Json.ofString s)).toList ++
    (item.meaning.map fun s => ("denotation", Json.ofString s)).toList)

end Item

namespace Entry

def ofJson? : Json → Option Entry
  | .array items => do return { features := ← items.mapM Feature.ofJson? }
  | .object members => do
    let members ← (Json.object members).members?
    let features ← (← Json.member? ["features"] members) >>= Json.list? Feature.ofJson?
    let form ← Json.optional? none (Json.nullable? Json.string?)
      (← Json.member? ["pf", "phonological_form"] members)
    let meaning ← Json.optional? none (Json.nullable? Json.string?) (← Json.member? ["denotation"] members)
    return { features, form, meaning }
  | _ => none

/-- Reads one entry from a text. -/
def ofText (text : String) : Except LexiconError Entry :=
  match Json.parseSound? text >>= ofJson? with
  | some entry => .ok entry
  | none => .error .undecodable

end Entry

namespace Entries

/-- Reads the members of an object as entries; each stands one level below the object. -/
def ofJson? (v : Json) : Option Entries := do
  (← v.members?).mapM fun (label, entry) =>
    if entry.isSound (Json.maxDepth - 1) then (Entry.ofJson? entry).map fun e => (label, e) else none

def ofText (text : String) : Except LexiconError Entries :=
  match Json.parse? text >>= ofJson? with
  | some entries => .ok entries
  | none => .error .undecodable

end Entries

namespace Lexicon

/-- Reads and checks a lexicon. -/
def ofText (text : String) : Except LexiconError Lexicon := Entries.ofText text >>= ofEntries

/-- The object from labels to written items. -/
def toJson (lex : Lexicon) : Json := .mkObject (lex.items.map fun item => (item.label, item.toJson))

end Lexicon

end MinimalistGrammar
