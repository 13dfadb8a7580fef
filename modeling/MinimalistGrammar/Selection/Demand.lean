import MinimalistGrammar.Encoding.Relations
import MinimalistGrammar.Selection.Basic

/-!
Whether a selection meets the demands of a logical form.
-/

namespace MinimalistGrammar

namespace Selection

variable (sel : Selection)

/-- Whether the head at `p` is a word of the argument and dominates the others. -/
def spans (argument : List SlotId) (p : PointId) : Bool :=
  sel.schema.slotOf p ∈ argument &&
    argument.all fun slot =>
      slot = sel.schema.slotOf p || sel.dominates p (sel.schema.lexicalPoint slot)

def selects (p : PointId) : Bool := (sel.feature? p).any (·.polarity = .selector)

/-- Whether the selector at `p` merges the argument. -/
def selectsArgument (argument : List SlotId) (p : PointId) : Bool :=
  sel.selects p && (sel.partner p).any (sel.spans argument)

/-- The first points of other slots that check a feature of the predicate. -/
def lexicalCheckers (predicate : SlotId) : List PointId :=
  ((sel.schema.pointsAt predicate).filterMap sel.checker).filter fun checker =>
    (sel.schema.point checker).isLexical && sel.schema.slotOf checker != predicate

def meets : Demand → Bool
  | .root category =>
    (sel.feature? sel.root).any fun f => f.polarity = .category && f.name = category
  | .category slot category => (sel.item? slot).any (·.category = category)
  | .theta predicate .subj argument =>
    ((sel.lexicalCheckers predicate).filterMap sel.schema.successor).any (sel.selectsArgument argument)
  | .theta predicate .obj argument =>
    (sel.schema.pointAt? predicate 0).any (sel.selectsArgument argument)
  | .theta predicate .iobj argument =>
    (sel.schema.pointAt? predicate 1).any (sel.selectsArgument argument)
  | .agree predicate argument =>
    ((sel.schema.pointsAt predicate).filterMap sel.partner).any (sel.spans argument)

/-- All requirements are met; the first that is not is reported. -/
def checkLogicalForm (requirements : List Requirement) : Except Inconsistency Unit :=
  requirements.forM fun r =>
    if sel.meets r.demand then .ok () else .error (.logicalForm r.description)

end Selection

end MinimalistGrammar
