import MinimalistGrammar.Encoding.Dominance

/-!
Movement of phrases. A phrase moves once for each of its licensees, to a licensor whose projection dominates
the place where the phrase has been so far. The number of movements is bounded.
-/

namespace MinimalistGrammar

open MinimalistGrammar.Sat

/-- A possible movement: the licensor at `checker` attracts the phrase with the licensee at `landing`. -/
structure Movement where
  checker : PointId
  landing : PointId
  /-- Where the phrase has been so far. -/
  base : PointId
  /-- The licensor's projection after the check. -/
  result : PointId
  /-- Holds when the movement takes place. -/
  link : Literal
deriving DecidableEq, Repr

namespace Movement

def landings (s : Schema) (lex : Lexical) : List PointId :=
  s.pointIds.filter fun p => lex.licensee p != .bottom

/-- The possible movements that end at a landing. -/
def endingAt (s : Schema) (lex : Lexical) (c : Checking) (landing : PointId) : List Movement :=
  match s.predecessor landing with
  | none => []
  | some base =>
    (c.checkersOf landing).filterMap fun (checker, link) =>
      if (lex.featuresAt checker).any (·.1.polarity = .licensor) then
        (s.successor checker).map fun result => { checker, landing, base, result, link }
      else none

def all (s : Schema) (lex : Lexical) (c : Checking) : List Movement :=
  (landings s lex).flatMap (Movement.endingAt s lex c)

/-- The movement goes upward, if the landing carries a licensee. -/
def goUp (lex : Lexical) (d : Dominance) (m : Movement) : Builder Unit :=
  match d.literal? m.result m.base with
  | some dominates => Builder.implies [m.link, lex.licensee m.landing] dominates
  | none => Builder.forbid [m.link, lex.licensee m.landing]

/-- What a landing requires of the movements that end there. -/
def constrainLanding (s : Schema) (lex : Lexical) (c : Checking) (d : Dominance) (landing : PointId) :
    Builder Unit :=
  if (s.predecessor landing).isNone then Builder.addClause [-lex.licensee landing]
  else (Movement.endingAt s lex c landing).forM (goUp lex d)

def constrain (s : Schema) (lex : Lexical) (c : Checking) (d : Dominance) : Builder Unit := do
  let landings := landings s lex
  landings.forM (constrainLanding s lex c d)
  Builder.atMost (landings.map lex.licensee) s.bounds.movements

end Movement

end MinimalistGrammar
