import MinimalistGrammar.Encoding.Basic
import MinimalistGrammar.Interface.Condition

/-!
Logical form. The parts of a logical form become requirements on the slots of a schema, and these become
clauses over choices, links and dominance.
-/

namespace MinimalistGrammar

open MinimalistGrammar.Sat

/-- What a part of a logical form asks of a derivation. -/
inductive Demand where
  | root (category : String)
  | category (slot : SlotId) (category : String)
  | theta (predicate : SlotId) (role : Role) (argument : List SlotId)
  | agree (predicate : SlotId) (argument : List SlotId)
deriving DecidableEq, Repr

structure Requirement where
  description : String
  demand : Demand
deriving DecidableEq, Repr

namespace Requirement

/-- The slot of a word that occurs exactly once. -/
def anchor (s : Schema) (word : String) : Except ConfigurationError SlotId :=
  match (s.words.zipIdx.filter (·.1 = word)).map (·.2) with
  | [] => .error (.unknownAnchor word)
  | [position] => .ok position
  | positions => .error (.ambiguousAnchor word positions.length)

def ofCategory (s : Schema) (word category : String) : Except ConfigurationError Requirement := do
  return ⟨s!"{word} is {category}", .category (← anchor s word) category⟩

def ofRelation (s : Schema) (r : Relation) : Except ConfigurationError Requirement := do
  let predicate ← anchor s r.predicate
  let argument ← r.argument.mapM (anchor s)
  return ⟨toString r,
    match r with
    | .theta _ role _ => .theta predicate role argument
    | .agree .. => .agree predicate argument⟩

/-- The requirements of a logical form: the root, the categories of words, the relations. -/
def ofLogicalForm (s : Schema) (form : LogicalForm) : Except ConfigurationError (List Requirement) := do
  let root := form.root.toList.map fun c => (⟨s!"root is {c}", .root c⟩ : Requirement)
  let categories ← form.categories.toList.mapM fun (word, category) => ofCategory s word category
  let relations ← form.relations.mapM (ofRelation s)
  return root ++ categories ++ relations

end Requirement

namespace Encoding

variable (s : Schema) (enc : Encoding)

/-- Holds when the head at `p` is a word of the argument and dominates the others; absent when that never
happens. -/
def spans (p : PointId) (argument : List SlotId) : Option (Builder Literal) :=
  if s.slotOf p ∈ argument then
    ((argument.filter (· ≠ s.slotOf p)).mapM fun slot =>
      enc.dominance.literal? p (s.lexicalPoint slot)).map Builder.and
  else none

def selects (p : PointId) : Builder Literal :=
  Builder.or (enc.lexical.literalsAt p (·.polarity = .selector))

/-- For each target that `p` may check and that may head the argument: the conditions, the check and the
span together. -/
def checksArgument (conditions : Literal → List Literal) (p : PointId) (argument : List SlotId) :
    Builder (List Literal) := do
  let found ← (enc.checking.partnersOf p).mapM fun (target, link) =>
    match enc.spans s target argument with
    | some spans => do
      let spans ← spans
      return [← Builder.and (conditions link ++ [spans])]
    | none => return []
  return found.flatten

/-- The argument is merged by the selector at `p`, on condition of the given literals. -/
def selectsArgument (conditions : List Literal) (p : PointId) (argument : List SlotId) :
    Builder (List Literal) := do
  let selects ← enc.selects p
  enc.checksArgument s (fun link => conditions ++ [selects, link]) p argument

/-- The argument is the specifier of a head that selects the predicate's projection. -/
def subjectArgument (predicate : SlotId) (argument : List SlotId) (p : PointId) :
    Builder (List Literal) := do
  let found ← (enc.checking.checkersOf p).mapM fun (checker, link) =>
    if !(s.point checker).isLexical || s.slotOf checker = predicate then pure []
    else
      match s.successor checker with
      | some next => enc.selectsArgument s [link] next argument
      | none => pure []
  return found.flatten

/-- Literals of which one has to hold for a demand to be met. -/
def alternatives : Demand → Builder (List Literal)
  | .root category =>
    return s.pointIds.filterMap fun p => enc.lexical.feature? p ⟨category, .category, false⟩
  | .category slot category =>
    return ((s.candidates slot).zip (enc.lexical.choicesAt slot)).filterMap fun (candidate, choice) =>
      if candidate.2.category = category then some choice.2 else none
  | .theta predicate .subj argument => do
    return (← (s.pointsAt predicate).mapM (enc.subjectArgument s predicate argument)).flatten
  | .theta predicate .obj argument =>
    match s.pointAt? predicate 0 with
    | some p => enc.selectsArgument s [] p argument
    | none => pure []
  | .theta predicate .iobj argument =>
    match s.pointAt? predicate 1 with
    | some p => enc.selectsArgument s [] p argument
    | none => pure []
  | .agree predicate argument => do
    return (← (s.pointsAt predicate).mapM fun p =>
      enc.checksArgument s (fun link => [link]) p argument).flatten

/-- Every demand is met. -/
def require (requirements : List Requirement) : Builder Unit :=
  requirements.forM fun r => do
    Builder.addClause (← enc.alternatives s r.demand)

end Encoding

end MinimalistGrammar
