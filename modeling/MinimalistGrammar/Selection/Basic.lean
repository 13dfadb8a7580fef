import MinimalistGrammar.Encoding.Basic

/-!
A selection: for each slot of a schema the item that fills it, and the checks that take place. An assignment
selects what its true choices and links say.
-/

namespace MinimalistGrammar

open MinimalistGrammar.Sat

structure Selection where
  schema : Schema
  /-- Per slot. -/
  items : List (Option Item)
  /-- Trigger and target of each check. -/
  links : List (PointId × PointId)
deriving DecidableEq, Repr

namespace Selection

/-- The candidates of a slot whose choice is true. -/
def chosen (s : Schema) (enc : Encoding) (a : Assignment) (slot : SlotId) : List Item :=
  ((s.candidates slot).zip (enc.lexical.choicesAt slot)).filterMap fun (candidate, choice) =>
    if choice.2.value a then some candidate.2 else none

/-- The item of a slot: one in a slot for a word, at most one in a slot for a covert item. -/
def chooseItem (s : Schema) (enc : Encoding) (a : Assignment) (slot : SlotId) :
    Except Inconsistency (Option Item) :=
  match chosen s enc a slot with
  | [] => if slot < s.words.length then .error (.slotChoice slot 0) else .ok none
  | [item] => .ok (some item)
  | items => .error (.slotChoice slot items.length)

/-- What an assignment selects. -/
def ofAssignment (s : Schema) (enc : Encoding) (a : Assignment) : Except Inconsistency Selection := do
  let items ← s.slotIds.mapM (chooseItem s enc a)
  let links := (enc.checking.links.filter (·.literal.value a)).map fun l => (l.trigger, l.target)
  return { schema := s, items, links }

variable (sel : Selection)

def item? (slot : SlotId) : Option Item := (sel.items[slot]?).join

def feature? (p : PointId) : Option Feature :=
  (sel.item? (sel.schema.slotOf p)).bind (·.feature? (sel.schema.point p).index)

/-- The points that have a feature, with it. -/
def active : List (PointId × Feature) :=
  sel.schema.pointIds.filterMap fun p => (sel.feature? p).map fun f => (p, f)

/-- The target that a trigger checks. -/
def partner (p : PointId) : Option PointId := (sel.links.find? (·.1 = p)).map (·.2)

/-- The trigger by which a target is checked. -/
def checker (p : PointId) : Option PointId := (sel.links.find? (·.2 = p)).map (·.1)

def checkCount (p : PointId) : Nat :=
  sel.links.countP (·.1 = p) + sel.links.countP (·.2 = p)

/-- What stands directly above a point: the next point of its slot for a trigger, the point after its
checker for a target. -/
def parent (p : PointId) : Option PointId :=
  (sel.feature? p).bind fun f =>
    match f.polarity with
    | .selector | .licensor => sel.schema.successor p
    | .selectee | .licensee => (sel.checker p).bind sel.schema.successor
    | .category => none

/-- The first `n` points above a point. -/
def climb : Nat → PointId → List PointId
  | 0, _ => []
  | n + 1, p =>
    match sel.parent p with
    | some q => q :: climb n q
    | none => []

/-- All points above a point. -/
def ancestors (p : PointId) : List PointId := sel.climb sel.schema.pointCount p

/-- Whether `above` properly dominates `below`. -/
def dominates (above below : PointId) : Bool := above ∈ sel.ancestors below

/-- The points that carry a category. -/
def roots : List PointId := (sel.active.filter (·.2.polarity = .category)).map (·.1)

def root : PointId := sel.roots.headD 0

/-- The slots whose item attracts a head, with the slot of that head. -/
def hosts : List (SlotId × Option SlotId) :=
  (sel.schema.slotIds.filter fun slot => (sel.item? slot).any (·.attractsHead)).map fun slot =>
    (slot, (sel.partner (sel.schema.lexicalPoint slot)).map sel.schema.slotOf)

/-- A readable name of a point: its slot and its feature. -/
def describe (p : PointId) : String :=
  sel.schema.describe (sel.schema.slotOf p) ++ " " ++
    match sel.feature? p with
    | some f => f.compact
    | none => s!"p{p}"

end Selection

end MinimalistGrammar
