import MinimalistGrammar.Encoding.Checking
import MinimalistGrammar.Reachability

/-!
The tree that the links describe. A trigger stands below the next point of its own slot, and a target below
the point after its checker. Dominance is the transitive closure of this, and no point dominates itself.
-/

namespace MinimalistGrammar

open MinimalistGrammar.Sat

structure Dominance where
  /-- Per point: what it may stand directly below, with the literal that says so. -/
  parents : Array (List (PointId × Literal))
  /-- Per point: what may dominate it, in order, with the literal that says so. -/
  ancestors : Array (List (PointId × Literal))
deriving Repr

namespace Dominance

def parentsOf (d : Dominance) (p : PointId) : List (PointId × Literal) := d.parents.getD p []

def ancestorsOf (d : Dominance) (p : PointId) : List (PointId × Literal) := d.ancestors.getD p []

/-- Holds when `above` properly dominates `below`; absent when it never does. -/
def literal? (d : Dominance) (above below : PointId) : Option Literal := (d.ancestorsOf below).lookup above

/-- What stands above a point in case it carries a trigger, or in case of each check of it. The first part
is absent where a slot ends. -/
def upward (s : Schema) (lex : Lexical) (c : Checking) (p : PointId) : List (Option PointId × Literal) :=
  (if lex.trigger p = .bottom then [] else [(s.successor p, lex.trigger p)]) ++
    (c.checkersOf p).map fun (checker, link) => (s.successor checker, link)

/-- The steps upward that lead somewhere. -/
def steps (upward : List (Option PointId × Literal)) : List (PointId × Literal) :=
  upward.filterMap fun (parent, l) => parent.map fun q => (q, l)

/-- No step leads out of a slot's end. -/
def forbidOpenEnds (upward : List (Option PointId × Literal)) : Builder Unit :=
  upward.forM fun (parent, l) => if parent.isNone then Builder.addClause [-l] else pure ()

/-- The points that may dominate `p`. -/
def above (s : Schema) (parents : Array (List (PointId × Literal))) (p : PointId) : List PointId :=
  let reached := reachable (fun q => (parents.getD q []).map (·.1)) s.pointIds p
  s.pointIds.filter fun q => q ≠ p && reached.contains q

/-- A parent dominates, and so does all that dominates the parent; nothing dominates itself. -/
def includeParents (d : Dominance) (p : PointId) : Builder Unit :=
  (d.parentsOf p).forM fun (parent, l) => do
    (d.literal? parent p).forM fun direct => Builder.implies [l] direct
    (d.ancestorsOf parent).forM fun (above, upper) =>
      if above = p then Builder.forbid [l, upper]
      else (d.literal? above p).forM fun through => Builder.implies [l, upper] through

/-- What dominates a point is its parent or dominates its parent. -/
def requireParents (d : Dominance) (above below : PointId) (l : Literal) : Builder Unit := do
  let parents := d.parentsOf below
  Builder.impliesAny [l] (parents.map (·.2))
  parents.forM fun (parent, isParent) =>
    if parent = above then pure ()
    else
      match d.literal? above parent with
      | some upper => Builder.implies [l, isParent] upper
      | none => Builder.forbid [l, isParent]

def build (s : Schema) (lex : Lexical) (c : Checking) : Builder Dominance := do
  let upward := s.pointIds.map (upward s lex c)
  upward.forM forbidOpenEnds
  let parents := (upward.map steps).toArray
  let ancestors ← s.pointIds.mapM fun p => do
    let above := above s parents p
    return above.zip (← Builder.freshList above.length)
  let d : Dominance := { parents, ancestors := ancestors.toArray }
  s.pointIds.forM d.includeParents
  s.pointIds.forM fun above => s.pointIds.forM fun below =>
    (d.literal? above below).forM fun l => d.requireParents above below l
  return d

end Dominance

end MinimalistGrammar
