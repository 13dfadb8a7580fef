import MinimalistGrammar.Derivation.Basic
import MinimalistGrammar.Grouping
import MinimalistGrammar.Selection.Check

/-!
The derivation that a selection describes. Every point that is neither a landing nor past its slot's features is a node:
the first point of a slot is an item by itself, and any other comes from the check at the point before it. A walk from the
root gives the nodes and leaves their numbers; then each is made, and whatever it refers to has to have a number.
-/

namespace MinimalistGrammar

/-- The numbers given out so far. Later entries come first. -/
structure Numbering where
  nodes : List (PointId × NodeId) := []
  leaves : List (SlotId × LeafId) := []
  /-- The points of the nodes, by their numbers. -/
  order : List PointId := []
deriving DecidableEq, Repr

namespace Numbering

def addNode (p : PointId) (b : Numbering) : Numbering :=
  { b with nodes := (p, b.order.length) :: b.nodes, order := b.order ++ [p] }

/-- A slot keeps its first number. -/
def addLeaf (slot : SlotId) (b : Numbering) : Numbering :=
  if (b.leaves.lookup slot).isSome then b else { b with leaves := (slot, b.leaves.length) :: b.leaves }

end Numbering

namespace Selection

variable (sel : Selection)

def featureRef (p : PointId) : FeatureRef := ⟨sel.schema.slotOf p, (sel.schema.point p).index⟩

/-- Whether a phrase moves to the point. -/
def isLanding (p : PointId) : Bool := (sel.feature? p).any (·.polarity = .licensee)

/-- Numbers the phrase at a point, itself before its head and the head before the argument, but nothing deeper than `n`.
A landing is no node, since the phrase that moves has been numbered where it was first merged. -/
def number : Nat → PointId → Numbering → Numbering
  | 0, _, b => b
  | n + 1, p, b =>
    let b := b.addNode p
    if (sel.schema.point p).isLexical then b.addLeaf (sel.schema.slotOf p)
    else match sel.schema.predecessor p with
      | none => b
      | some head =>
        let b := number n head b
        match sel.partner head with
        | none => b
        | some target => if sel.isLanding target then b else number n target b

/-- The leaf of a slot. -/
def leaf? (slot : SlotId) : Option Leaf :=
  (sel.item? slot).map fun item => {
    item := item.label
    form := item.form
    meaning := item.meaning
    features := item.features
    position := sel.schema.slots[slot]? >>= (·.position) }

/-- Fails, and names the point, when there is nothing. -/
def placed {α : Type} (p : PointId) (found : Option α) : Except Inconsistency α :=
  found.elim (.error (.unplaced (sel.describe p))) .ok

variable (b : Numbering)

/-- The feature at a point, of a leaf that has a number. -/
def leafFeature (p : PointId) : Except Inconsistency FeatureRef :=
  (sel.placed p (b.leaves.lookup (sel.schema.slotOf p))).map (⟨·, (sel.schema.point p).index⟩)

def nodeId (p : PointId) : Except Inconsistency NodeId := sel.placed p (b.nodes.lookup p)

/-- The point of the phrase that moves to a landing, where it is first merged. -/
def mover (landing : PointId) : Except Inconsistency PointId :=
  let slot := sel.schema.slotOf landing
  sel.placed landing ((sel.item? slot).bind fun item => sel.schema.pointAt? slot item.categoryIndex)

/-- What the check of a target by the feature at `head` builds. -/
def operation (head target : PointId) : Except Inconsistency Operation := do
  let check : Check := ⟨← sel.leafFeature b head, ← sel.leafFeature b target⟩
  if sel.isLanding target then
    return .move (← sel.nodeId b head) (← sel.nodeId b (← sel.mover target)) check
  if (sel.feature? head).any (·.movesHead) then
    return .headMove (← sel.nodeId b head) (← sel.nodeId b target) check (← sel.leafFeature b target).leaf
  return .merge (← sel.nodeId b head) (← sel.nodeId b target) check

/-- A selector or licensor that checks nothing. -/
def unchecked (p : PointId) : Inconsistency :=
  .checkCount (sel.schema.describe (sel.schema.slotOf p)) (((sel.feature? p).map (·.compact)).getD "") 0

def node (p : PointId) : Except Inconsistency Node := do
  let leaf := (← sel.leafFeature b p).leaf
  let operation ← match sel.schema.predecessor p with
    | none => .ok (.lexical leaf)
    | some head => (sel.partner head).elim (.error (sel.unchecked head)) (sel.operation b head)
  return ⟨operation, leaf, (sel.schema.point p).index⟩

/-- The leaves, which are made in the order of their slots, by their numbers. -/
def leaves : Except Inconsistency (List Leaf) := do
  let leaves ← (sortByKey b.leaves).mapM fun (slot, id) =>
    match sel.leaf? slot with
    | some leaf => .ok (id, leaf)
    | none => .error (.unplaced (sel.schema.describe slot))
  return (sortByKey leaves).map (·.2)

def derivation : Except Inconsistency Derivation := do
  let b := sel.number sel.schema.pointCount sel.root {}
  let leaves ← sel.leaves b
  let nodes ← b.order.mapM (sel.node b)
  return { leaves, nodes }

end Selection

end MinimalistGrammar
