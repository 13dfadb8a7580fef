import MinimalistGrammar.Grouping
import MinimalistGrammar.Sat.Cardinality
import MinimalistGrammar.Schema

/-!
Which item fills each slot, and so which feature each point carries. A slot for a word has exactly one item,
a slot for a covert item at most one.
-/

namespace MinimalistGrammar

open MinimalistGrammar.Sat

/-- A literal for each candidate of each slot, and for each feature that a point may carry. -/
structure Lexical where
  choices : Array (List (ItemId × Literal))
  /-- Per slot: some item fills it. -/
  used : Array Literal
  /-- Per point: the features it may carry, each once. -/
  features : Array (List (Feature × Literal))
  /-- Per point: the slot's item has a feature there. -/
  active : Array Literal
  triggers : Array Literal
  targets : Array Literal
  categories : Array Literal
  licensees : Array Literal
deriving Repr

namespace Lexical

variable (lex : Lexical)

def choicesAt (slot : SlotId) : List (ItemId × Literal) := lex.choices.getD slot []

def usedAt (slot : SlotId) : Literal := lex.used.getD slot .bottom

def featuresAt (p : PointId) : List (Feature × Literal) := lex.features.getD p []

/-- Holds when the point carries a trigger. -/
def trigger (p : PointId) : Literal := lex.triggers.getD p .bottom

def target (p : PointId) : Literal := lex.targets.getD p .bottom

def category (p : PointId) : Literal := lex.categories.getD p .bottom

def licensee (p : PointId) : Literal := lex.licensees.getD p .bottom

/-- Holds when the point carries this feature; absent when it never does. -/
def feature? (p : PointId) (f : Feature) : Option Literal := (lex.featuresAt p).lookup f

/-- The literals of the features at a point that pass a test. -/
def literalsAt (p : PointId) (test : Feature → Bool) : List Literal :=
  ((lex.featuresAt p).filter fun f => test f.1).map (·.2)

/-- The features at a point with the choices that put them there. -/
def sources (s : Schema) (choices : List (List (ItemId × Literal))) (p : PointId) :
    List (Feature × List Literal) :=
  groupByKey (((s.candidates (s.slotOf p)).zip (choices.getD (s.slotOf p) [])).filterMap
    fun (candidate, choice) =>
      (candidate.2.feature? (s.point p).index).map fun f => (f, choice.2))

/-- Chooses an item for a slot; the second part holds when there is one. -/
def choose (s : Schema) (slot : SlotId) : Builder (List (ItemId × Literal) × Literal) := do
  let candidates := s.candidates slot
  let lits ← Builder.freshList candidates.length
  let choices := (candidates.map (·.1)).zip lits
  if slot < s.words.length then
    Builder.exactlyOne lits
    return (choices, .top)
  else
    Builder.atMostOne lits
    return (choices, ← Builder.or lits)

/-- The features of one point; the second part holds when there is one. -/
def carry (sources : List (Feature × List Literal)) : Builder (List (Feature × Literal) × Literal) := do
  let features ← sources.mapM fun (f, lits) => return (f, ← Builder.or lits)
  return (features, ← Builder.or (features.map (·.2)))

/-- Per point: it carries a feature of such a polarity. -/
def carrying (features : List (List (Feature × Literal))) (test : Polarity → Bool) :
    Builder (Array Literal) := do
  let lits ← features.mapM fun fs => Builder.or ((fs.filter fun f => test f.1.polarity).map (·.2))
  return lits.toArray

def build (s : Schema) : Builder Lexical := do
  let chosen ← s.slotIds.mapM (choose s)
  let choices := chosen.map (·.1)
  let carried ← s.pointIds.mapM fun p => carry (sources s choices p)
  let features := carried.map (·.1)
  let triggers ← carrying features Polarity.isTrigger
  let targets ← carrying features Polarity.isTarget
  let categories ← carrying features (· = .category)
  let licensees ← carrying features (· = .licensee)
  return {
    choices := choices.toArray
    used := (chosen.map (·.2)).toArray
    features := features.toArray
    active := (carried.map (·.2)).toArray
    triggers, targets, categories, licensees }

end Lexical

end MinimalistGrammar
