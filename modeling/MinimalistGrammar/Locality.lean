import MinimalistGrammar.Encoding.Basic
import MinimalistGrammar.Reachability

/-!
Locality of movement. A policy adds clauses that rule out some of the possible movements.

Shortest move: a licensor attracts the only phrase that waits with its licensee. Phase impenetrability: a
phrase leaves a phase only from the specifier of the phase's head.
-/

namespace MinimalistGrammar

open MinimalistGrammar.Sat

structure LocalityPolicy where
  name : String
  constrain : Schema → Encoding → Builder Unit

/-- The locality conditions that can be chosen by configuration. -/
inductive Locality where
  | shortestMove
  /-- Phases are named by the selectee of their head. -/
  | phaseBounded (phases : List String)
deriving DecidableEq, Repr

instance : Inhabited Locality := ⟨.shortestMove⟩

namespace LocalityPolicy

/-- The licensees that two landings may carry both, with the literals for the one and the other. -/
def sharedLicensees (lex : Lexical) (p q : PointId) : List (Literal × Literal) :=
  (lex.featuresAt p).filterMap fun (f, l) =>
    if f.polarity = .licensee then (lex.feature? q f).map fun m => (l, m) else none

/-- The first movement may not pass over the phrase of the second one while that waits with the same
licensee: the second lands below the first, and starts out from below where the first has been. -/
def forbidCrossing (s : Schema) (enc : Encoding) (first second : Movement) : Builder Unit :=
  if s.slotOf first.landing = s.slotOf second.landing || first.checker = second.checker then pure ()
  else
    match enc.dominance.literal? first.result second.landing,
      enc.dominance.literal? second.result first.base with
    | some outer, some inner =>
      (sharedLicensees enc.lexical first.landing second.landing).forM fun (l, m) =>
        Builder.forbid [first.link, second.link, outer, inner, l, m]
    | _, _ => pure ()

def shortestMove : LocalityPolicy where
  name := "shortest move"
  constrain s enc :=
    enc.movements.forM fun first => enc.movements.forM fun second => forbidCrossing s enc first second

/-- The points that may carry the selectee of a phase, with the literals that say so. -/
def phasePoints (s : Schema) (enc : Encoding) (phases : List String) : List (PointId × Literal) :=
  s.pointIds.flatMap fun p => phases.filterMap fun phase =>
    (enc.lexical.feature? p ⟨phase, .selectee, false⟩).map fun l => (p, l)

/-- A movement out of a phase starts from a specifier of its head. -/
def leaveFromEdge (s : Schema) (enc : Encoding) (m : Movement) (phase : PointId × Literal) :
    Builder Unit :=
  let head := s.slotOf phase.1
  if head = s.slotOf m.base then pure ()
  else
    match enc.dominance.literal? m.result phase.1, enc.dominance.literal? phase.1 m.base with
    | some outside, some inside =>
      let edge := (enc.checking.checkersOf m.base).filter fun (checker, _) =>
        s.slotOf checker = head && !(s.point checker).isLexical
      Builder.addClause ([-m.link, -phase.2, -outside, -inside] ++ edge.map (·.2))
    | _, _ => pure ()

/-- Shortest move and phase impenetrability. -/
def phaseBounded (phases : List String) : LocalityPolicy where
  name := "phase-bounded"
  constrain s enc := do
    shortestMove.constrain s enc
    let points := phasePoints s enc (firstOccurrences (phases.mergeSort (· ≤ ·)))
    enc.movements.forM fun m => points.forM fun phase => leaveFromEdge s enc m phase

/-- No condition at all. -/
def unconstrained : LocalityPolicy where
  name := "unconstrained"
  constrain _ _ := pure ()

/-- Nothing moves. -/
def frozen : LocalityPolicy where
  name := "frozen"
  constrain _ enc := enc.movements.forM fun m => Builder.forbid [m.link]

end LocalityPolicy

def Locality.policy : Locality → LocalityPolicy
  | shortestMove => .shortestMove
  | phaseBounded phases => .phaseBounded phases

end MinimalistGrammar
