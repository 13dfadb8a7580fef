import MinimalistGrammar.Encoding.Relations
import MinimalistGrammar.Encoding.WordOrder
import MinimalistGrammar.Parse.Options

/-!
A parse as a formula. The clauses come in families, one after another: first those that describe derivations,
then those of the locality policy, and last those of the interfaces.
-/

namespace MinimalistGrammar

open MinimalistGrammar.Sat

/-- The groups of clauses, in order. -/
inductive Family where
  | lexical
  | checking
  | root
  | tree
  | movement
  | headMovement
  | symmetry
  | locality
  | linearization
  | logicalForm
deriving DecidableEq, Repr

def Family.name : Family → String
  | lexical => "lexical"
  | checking => "checking"
  | root => "root"
  | tree => "tree"
  | movement => "movement"
  | headMovement => "head movement"
  | symmetry => "symmetry"
  | locality => "locality"
  | linearization => "linearization"
  | logicalForm => "logical form"

/-- What a family added to a formula. -/
structure FamilySize where
  family : Family
  newVars : Nat
  newClauses : Nat
deriving DecidableEq, Repr

/-- A construction that keeps account of its families. -/
abbrev Assembly := StateT (List FamilySize) Builder

namespace Assembly

/-- Adds a family, and records what it has added. -/
def family {α : Type} (family : Family) (b : Builder α) : Assembly α := fun sizes => do
  let (vars, clauses) ← Builder.size
  let a ← b
  let (allVars, allClauses) ← Builder.size
  return (a, sizes ++ [⟨family, allVars - vars, allClauses - clauses⟩])

/-- All that describes a derivation, up to locality. -/
def describe (s : Schema) : Assembly Encoding := do
  let lexical ← family .lexical (Lexical.build s)
  let checking ← family .checking (Checking.build s lexical)
  family .root lexical.requireRoot
  let dominance ← family .tree (Dominance.build s lexical checking)
  family .movement (Movement.constrain s lexical checking dominance)
  let headMoves ← family .headMovement (HeadMove.build s lexical checking)
  family .symmetry (lexical.orderCovertSlots s)
  return { lexical, checking, dominance, movements := Movement.all s lexical checking, headMoves }

/-- The whole formula: word order only if asked for, and logical form only if it requires something. -/
def assemble (s : Schema) (locality : LocalityPolicy) (linearize : Bool)
    (requirements : List Requirement) : Assembly Encoding := do
  let enc ← describe s
  family .locality (locality.constrain s enc)
  if linearize then family .linearization (enc.requireWordOrder s)
  if !requirements.isEmpty then family .logicalForm (enc.require s requirements)
  return enc

end Assembly

/-- A parse ready to be solved. -/
structure Problem where
  schema : Schema
  encoding : Encoding
  formula : Formula
  families : List FamilySize
  /-- The sentence to be pronounced, if that is required. -/
  sentence : Option (List String)
  requirements : List Requirement
  timeout : Option Nat

/-- A lexicon with the options and the locality policy to parse under. -/
structure Grammar where
  lexicon : Lexicon
  options : ParseOptions := {}
  locality : LocalityPolicy := options.locality.policy

namespace Grammar

/-- The grammar with further items. -/
def extend (g : Grammar) (entries : Entries) : Except LexiconError Grammar := do
  if entries.isEmpty then return g
  return { g with lexicon := ← g.lexicon.extend entries }

/-- Sets up a parse. Options come first, then the condition, then its words, then what it requires of
them. -/
def prepare (g : Grammar) (c : Condition) : Except ParseError Problem := do
  g.options.validate.mapError .configuration
  let linearize := g.options.constrainsSentence && c.sentence.isSome
  let interpret := g.options.constrainsLogicalForm && c.logicalForm.isSome
  if !linearize && !interpret then throw (.configuration .unconstrained)
  let words ← c.words.mapError .configuration
  let schema ← Schema.build g.lexicon words g.options.bounds
  let requirements ← (match if interpret then c.logicalForm else none with
    | some form => (Requirement.ofLogicalForm schema form).mapError ParseError.configuration
    | none => .ok [])
  let ((encoding, families), formula) :=
    ((Assembly.assemble schema g.locality linearize requirements).run []).run ∅
  return {
    schema, encoding, formula, families, requirements
    sentence := if linearize then c.sentence else none
    timeout := g.options.timeout }

end Grammar

end MinimalistGrammar
