import MinimalistGrammar.Encoding.Checking

/-!
Head movement. An item whose first selector attracts heads takes up the head of the phrase it selects: it is
a host. Hosts themselves are not taken up, and their number is bounded.
-/

namespace MinimalistGrammar

open MinimalistGrammar.Sat

/-- A possible head movement; the literal holds when it takes place. -/
structure HeadMove where
  mover : SlotId
  host : SlotId
  literal : Literal
deriving DecidableEq, Repr

namespace HeadMove

/-- The slots that may hold a host, with the literals of their attracting selectors. -/
def hosts (s : Schema) (lex : Lexical) : List (SlotId × List Literal) :=
  s.slotIds.filterMap fun slot =>
    match lex.literalsAt (s.lexicalPoint slot) (·.movesHead) with
    | [] => none
    | attracting => some (slot, attracting)

/-- The slots whose head a host may take up, with the links by which it selects them. -/
def movers (s : Schema) (c : Checking) (host : SlotId) : List (SlotId × List Literal) :=
  groupByKey ((c.partnersOf (s.lexicalPoint host)).map fun (target, link) => (s.slotOf target, link))

/-- A head is taken up exactly when its slot holds a host that selects it. -/
def takeUp (slot : SlotId) (host : Literal) (mover : SlotId × List Literal) : Builder HeadMove := do
  let moved ← Builder.fresh
  mover.2.forM fun link => Builder.implies [host, link] moved
  Builder.implies [moved] host
  Builder.impliesAny [moved] mover.2
  return ⟨mover.1, slot, moved⟩

/-- A slot that may hold a host: whether it does, and the heads it may take up. -/
def attract (s : Schema) (c : Checking) (candidate : SlotId × List Literal) :
    Builder (Literal × List HeadMove) := do
  let host ← Builder.or candidate.2
  return (host, ← (movers s c candidate.1).mapM (takeUp candidate.1 host))

/-- No host is taken up by another. -/
def forbidChains (moves : List HeadMove) : Builder Unit :=
  moves.forM fun first => moves.forM fun second =>
    if second.mover = first.host then Builder.forbid [first.literal, second.literal] else pure ()

def build (s : Schema) (lex : Lexical) (c : Checking) : Builder (List HeadMove) := do
  let hosted ← (hosts s lex).mapM (attract s c)
  let moves := hosted.flatMap (·.2)
  forbidChains moves
  Builder.atMost (hosted.map (·.1)) s.bounds.headMovements
  return moves

end HeadMove

end MinimalistGrammar
