import MinimalistGrammar.Json.Decode
import MinimalistGrammar.Json.Writer
import MinimalistGrammar.Parse.Options

/-!
Options in JSON. Fields that are not given have their defaults; all are written.
-/

namespace MinimalistGrammar

namespace Bounds

def toJson (b : Bounds) : Json :=
  .mkObject [("max_num_empty_lexical_items", .ofNat b.emptyItems), ("max_num_movements", .ofNat b.movements),
    ("max_num_head_movements", .ofNat b.headMovements)]

def ofJson? (v : Json) : Option Bounds := do
  match ← v.fields? [["max_num_empty_lexical_items"], ["max_num_movements"],
      ["max_num_head_movements"]] with
  | [emptyItems, movements, headMovements] =>
    let default : Bounds := {}
    return {
      emptyItems := ← Json.optional? default.emptyItems Json.word64? emptyItems
      movements := ← Json.optional? default.movements Json.word64? movements
      headMovements := ← Json.optional? default.headMovements Json.word64? headMovements }
  | _ => none

end Bounds

namespace Locality

def toJson : Locality → Json
  | shortestMove => .mkObject [("policy", .ofString "shortest_move")]
  | phaseBounded phases =>
    .mkObject [("policy", .ofString "phase_bounded"), ("phases", .ofStrings phases)]

def ofJson? (depth : Nat) (v : Json) : Option Locality := do
  if !v.isSound depth then none
  let (tag, v) ← v.tagged? "policy"
  match tag with
  | "shortest_move" =>
    let _ ← v.fields? []
    return shortestMove
  | "phase_bounded" =>
    match ← v.fields? [["phases"]] with
    | [phases] => return phaseBounded (← Json.required? (Json.list? Json.string?) phases)
    | _ => none
  | _ => none

end Locality

namespace ParseOptions

def toJson (o : ParseOptions) : Json :=
  .mkObject [("include_pf_constraints", .ofBool o.constrainsSentence),
    ("include_lf_constraints", .ofBool o.constrainsLogicalForm),
    ("extract_all_parses", .ofBool o.allParses), ("max_parses", .ofNat o.maxParses),
    ("bounds", o.bounds.toJson), ("timeout_ms", .ofOption .ofNat o.timeout),
    ("locality", o.locality.toJson)]

def ofJson? (depth : Nat) (v : Json) : Option ParseOptions := do
  match ← v.fields? [["include_pf_constraints"], ["include_lf_constraints"], ["extract_all_parses"],
      ["max_parses"], ["bounds"], ["timeout_ms"], ["locality"]] with
  | [sentence, logicalForm, allParses, maxParses, bounds, timeout, locality] =>
    let default : ParseOptions := {}
    return {
      constrainsSentence := ← Json.optional? default.constrainsSentence Json.bool? sentence
      constrainsLogicalForm := ← Json.optional? default.constrainsLogicalForm Json.bool? logicalForm
      allParses := ← Json.optional? default.allParses Json.bool? allParses
      maxParses := ← Json.optional? default.maxParses Json.word64? maxParses
      bounds := ← Json.optional? default.bounds Bounds.ofJson? bounds
      timeout := ← Json.optional? default.timeout (Json.nullable? Json.word64?) timeout
      locality := ← Json.optional? default.locality (Locality.ofJson? (depth - 1)) locality }
  | _ => none

def ofText (text : String) : Except ConfigurationError ParseOptions :=
  match Json.parse? text >>= ofJson? Json.maxDepth with
  | some o => .ok o
  | none => .error .undecodable

end ParseOptions

end MinimalistGrammar
