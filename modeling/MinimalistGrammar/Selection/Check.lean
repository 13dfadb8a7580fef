import MinimalistGrammar.Selection.Basic

/-!
When a selection is a derivation. The checks come in a fixed order, and the first that fails is the one
reported.
-/

namespace MinimalistGrammar

/-- Fails unless the condition holds. -/
def Inconsistency.unless (e : Inconsistency) (holds : Bool) : Except Inconsistency Unit :=
  if holds then .ok () else .error e

/-- Fails when more is used than a bound allows. -/
def Inconsistency.withinBound (bound : String) (limit used : Nat) : Except Inconsistency Unit :=
  (boundViolated bound limit used).unless (used ≤ limit)

namespace Selection

variable (sel : Selection)

def checkEmptyItems : Except Inconsistency Unit :=
  Inconsistency.withinBound "max_num_empty_lexical_items" sel.schema.bounds.emptyItems
    (sel.schema.covertSlots.countP fun slot => (sel.item? slot).isSome)

def isCompatible (x y : PointId) : Bool :=
  match sel.feature? x, sel.feature? y with
  | some f, some g => f.checks g
  | _, _ => false

def checkLinks : Except Inconsistency Unit :=
  sel.links.forM fun (x, y) =>
    (Inconsistency.incompatible (sel.describe x) (sel.describe y)).unless (sel.isCompatible x y)

/-- Every feature is checked once, a category never, and all but categories stand below something. -/
def checkFeature (p : PointId) (f : Feature) : Except Inconsistency Unit := do
  let expected := if f.polarity = .category then 0 else 1
  (Inconsistency.checkCount (sel.schema.describe (sel.schema.slotOf p)) f.compact
    (sel.checkCount p)).unless (sel.checkCount p = expected)
  (Inconsistency.disconnected (sel.describe p)).unless
    (f.polarity = .category || (sel.parent p).isSome)

def checkFeatures : Except Inconsistency Unit := sel.active.forM fun (p, f) => sel.checkFeature p f

def checkRoot : Except Inconsistency Unit :=
  (Inconsistency.rootCount sel.roots.length).unless (sel.roots.length = 1)

def checkConnected : Except Inconsistency Unit :=
  sel.active.forM fun (p, _) =>
    (Inconsistency.disconnected (sel.describe p)).unless (p = sel.root || sel.dominates sel.root p)

def landings : List PointId := (sel.active.filter (·.2.polarity = .licensee)).map (·.1)

/-- Whether the phrase that moves to a landing has been below it. -/
def isLicensed (landing : PointId) : Bool :=
  match sel.schema.predecessor landing, (sel.checker landing).bind sel.schema.successor with
  | some base, some result => sel.dominates result base
  | _, _ => false

def checkMovement : Except Inconsistency Unit := do
  sel.landings.forM fun p =>
    (Inconsistency.unlicensedMovement (sel.describe p)).unless (sel.isLicensed p)
  Inconsistency.withinBound "max_num_movements" sel.schema.bounds.movements sel.landings.length

/-- Whether the head that a host takes up is there and is no host itself. -/
def isProperMover (mover : Option SlotId) : Bool :=
  mover.any fun slot => !sel.hosts.any (·.1 = slot)

def checkHeadMovement : Except Inconsistency Unit := do
  sel.hosts.forM fun (host, mover) =>
    (Inconsistency.headMovement (sel.schema.describe host)).unless (sel.isProperMover mover)
  Inconsistency.withinBound "max_num_head_movements" sel.schema.bounds.headMovements sel.hosts.length

/-- All checks that concern neither words nor logical form. -/
def check : Except Inconsistency Unit := do
  sel.checkEmptyItems
  sel.checkLinks
  sel.checkFeatures
  sel.checkRoot
  sel.checkConnected
  sel.checkMovement
  sel.checkHeadMovement

end Selection

end MinimalistGrammar
