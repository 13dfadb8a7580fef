import MinimalistGrammar.Encoding.Lexical

/-!
Which feature checks which. A link joins a trigger to a target in another slot; every trigger checks exactly
one target, every target is checked exactly once, and the two match.
-/

namespace MinimalistGrammar

open MinimalistGrammar.Sat

/-- A possible check; the literal holds when it takes place. -/
structure Link where
  trigger : PointId
  target : PointId
  literal : Literal
deriving DecidableEq, Repr

/-- All possible checks. -/
structure Checking where
  /-- By trigger, then by target. -/
  links : List Link
  /-- Per trigger: the targets it may check. -/
  partners : Array (List (PointId × Literal))
  /-- Per target: the triggers that may check it. -/
  checkers : Array (List (PointId × Literal))
deriving Repr

namespace Checking

def partnersOf (c : Checking) (p : PointId) : List (PointId × Literal) := c.partners.getD p []

def checkersOf (c : Checking) (p : PointId) : List (PointId × Literal) := c.checkers.getD p []

/-- The triggers at `x` that check some feature at `y`, each with the features it checks. -/
def matching (lex : Lexical) (x y : PointId) : List (Literal × List Literal) :=
  (lex.featuresAt x).filterMap fun (f, l) =>
    match lex.literalsAt y f.checks with
    | [] => none
    | targets => some (l, targets)

/-- The pairs of points in different slots between which a check is possible. -/
def candidates (s : Schema) (lex : Lexical) : List (PointId × PointId × List (Literal × List Literal)) :=
  s.pointIds.flatMap fun x => s.pointIds.filterMap fun y =>
    if s.slotOf x = s.slotOf y then none
    else
      match matching lex x y with
      | [] => none
      | ms => some (x, y, ms)

/-- A link requires a trigger, and for each trigger a target that it checks. -/
def link (x y : PointId) (ms : List (Literal × List Literal)) : Builder Link := do
  let l ← Builder.fresh
  Builder.impliesAny [l] (ms.map (·.1))
  ms.forM fun (trigger, targets) => Builder.impliesAny [l, trigger] targets
  return ⟨x, y, l⟩

/-- If the feature is there it is checked, and in any case at most once. -/
def checkOnce (feature : Literal) (links : List (PointId × Literal)) : Builder Unit := do
  Builder.impliesAny [feature] (links.map (·.2))
  Builder.atMostOne (links.map (·.2))

def ofLinks (s : Schema) (links : List Link) : Checking where
  links := links
  partners := (s.pointIds.map fun p =>
    (links.filter (·.trigger = p)).map fun l => (l.target, l.literal)).toArray
  checkers := (s.pointIds.map fun p =>
    (links.filter (·.target = p)).map fun l => (l.trigger, l.literal)).toArray

def build (s : Schema) (lex : Lexical) : Builder Checking := do
  let links ← (candidates s lex).mapM fun (x, y, ms) => link x y ms
  let c := ofLinks s links
  s.pointIds.forM fun p => do
    checkOnce (lex.trigger p) (c.partnersOf p)
    checkOnce (lex.target p) (c.checkersOf p)
  return c

end Checking

/-- Exactly one point carries a category. -/
def Lexical.requireRoot (lex : Lexical) : Builder Unit :=
  Builder.exactlyOne (lex.categories.toList.filter (· != .bottom))

end MinimalistGrammar
