import MinimalistGrammar.Interface.Condition
import MinimalistGrammar.Json.Decode
import MinimalistGrammar.Json.Writer

/-!
Interface conditions in JSON. The sentence is under `pf`, the logical form under `lf`. A phrase is a list of
words or a text that blanks separate into words, and is written as a list. A corpus is a list of conditions
under `input_sequence`.

Readers take the number of arrays and objects that may still stand inside one another.
-/

namespace MinimalistGrammar

namespace Phrase

def ofJson? : Json → Option Phrase
  | .string s => s.map Text.words
  | v => v.list? Json.string?

end Phrase

namespace Role

def toJson (r : Role) : Json := .ofString r.name

def ofJson? (v : Json) : Option Role := v.variant? Json.isUnit >>= ofName?

end Role

namespace Relation

def toJson : Relation → Json
  | theta predicate role argument =>
    .mkObject [("relation", .ofString "theta"), ("pred", .ofString predicate), ("role", role.toJson),
      ("arg", .ofStrings argument)]
  | agree predicate argument =>
    .mkObject [("relation", .ofString "agree"), ("pred", .ofString predicate),
      ("arg", .ofStrings argument)]

def ofJson? (depth : Nat) (v : Json) : Option Relation := do
  if !v.isSound depth then none
  let (tag, v) ← v.tagged? "relation"
  match tag with
  | "theta" =>
    match ← v.fields? [["pred"], ["role"], ["arg"]] with
    | [predicate, role, argument] =>
      return theta (← Json.required? Json.string? predicate) (← Json.required? Role.ofJson? role)
        (← Json.required? Phrase.ofJson? argument)
    | _ => none
  | "agree" =>
    match ← v.fields? [["pred"], ["arg"]] with
    | [predicate, argument] =>
      return agree (← Json.required? Json.string? predicate) (← Json.required? Phrase.ofJson? argument)
    | _ => none
  | _ => none

end Relation

namespace Categories

def toJson (c : Categories) : Json := .mkObject (c.toList.map fun (w, k) => (w, .ofString k))

def ofJson? (v : Json) : Option Categories := do
  let members ← (← v.members?).mapM fun (w, k) => k.string?.map fun k => (w, k)
  return ofList members

end Categories

namespace LogicalForm

def toJson (f : LogicalForm) : Json :=
  .mkObject [("root", .ofOption .ofString f.root), ("relations", .array (f.relations.map Relation.toJson)),
    ("categories", f.categories.toJson), ("words", .ofOption .ofStrings f.words)]

def ofJson? (depth : Nat) (v : Json) : Option LogicalForm := do
  match ← v.fields? [["root"], ["relations"], ["categories"], ["words"]] with
  | [root, relations, categories, words] =>
    return {
      root := ← Json.optional? none (Json.nullable? Json.string?) root
      relations := ← Json.optional? [] (Json.list? (Relation.ofJson? (depth - 2))) relations
      categories := ← Json.optional? ∅ Categories.ofJson? categories
      words := ← Json.optional? none (Json.nullable? (Json.list? Json.string?)) words }
  | _ => none

end LogicalForm

namespace Condition

def toJson (c : Condition) : Json :=
  .mkObject ((c.sentence.map fun words => ("pf", Json.ofStrings words)).toList ++
    (c.logicalForm.map fun f => ("lf", f.toJson)).toList)

def ofJson? (depth : Nat) (v : Json) : Option Condition := do
  match ← v.fields? [["pf", "PF"], ["lf", "LF"]] with
  | [sentence, logicalForm] =>
    return {
      sentence := ← Json.optional? none (Json.nullable? (Json.list? Json.string?)) sentence
      logicalForm := ← Json.optional? none (Json.nullable? (LogicalForm.ofJson? (depth - 1))) logicalForm }
  | _ => none

/-- Reads one condition from a text. -/
def ofText (text : String) : Except ConfigurationError Condition :=
  match Json.parse? text >>= ofJson? Json.maxDepth with
  | some c => .ok c
  | none => .error .undecodable

end Condition

/-- Conditions to be parsed in order. -/
structure Corpus where
  conditions : List Condition
deriving DecidableEq, Repr

namespace Corpus

def toJson (c : Corpus) : Json := .mkObject [("input_sequence", .array (c.conditions.map Condition.toJson))]

def ofJson? (depth : Nat) (v : Json) : Option Corpus := do
  match ← v.fields? [["input_sequence"]] with
  | [conditions] => return ⟨← Json.required? (Json.list? (Condition.ofJson? (depth - 2))) conditions⟩
  | _ => none

def ofText (text : String) : Except ConfigurationError Corpus :=
  match Json.parse? text >>= ofJson? Json.maxDepth with
  | some c => .ok c
  | none => .error .undecodable

end Corpus

end MinimalistGrammar
