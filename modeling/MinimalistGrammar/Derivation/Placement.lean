import MinimalistGrammar.Derivation.Basic

/-!
How a derivation is pronounced, by its nodes alone. A walk from the root comes to complements after their lexical head,
and to specifiers before. A phrase that moves is not walked through where it was first merged: the walk jumps to it from
the node of its last landing.
-/

namespace MinimalistGrammar

/-- Where movement and head movement put things. Later entries come first. -/
structure Placement where
  /-- The phrases that move, each with the index of its last licensee and the node that checks it. -/
  landings : List (NodeId × Nat × NodeId) := []
  /-- The hosts, each with the leaf that it takes up. -/
  hosts : List (LeafId × LeafId) := []
  incorporated : List LeafId := []
deriving DecidableEq, Repr

namespace Placement

/-- Of the landings of a phrase the one with the greatest index counts. -/
def land (mover : NodeId) (index : Nat) (id : NodeId) (placement : Placement) : Placement :=
  if (placement.landings.lookup mover).all fun last => decide (last.1 < index) then
    { placement with landings := (mover, index, id) :: placement.landings }
  else placement

def takeUp (host leaf : LeafId) (placement : Placement) : Placement :=
  { placement with hosts := (host, leaf) :: placement.hosts, incorporated := leaf :: placement.incorporated }

/-- Enters what a node moves. -/
def enter (placement : Placement) (id : NodeId) : Operation → Placement
  | .move _ mover c => placement.land mover c.target.index id
  | .headMove _ _ c leaf => placement.takeUp c.trigger.leaf leaf
  | .lexical _ | .merge _ _ _ => placement

def ofNodes (nodes : List Node) : Placement :=
  nodes.zipIdx.foldl (fun placement x => placement.enter x.2 x.1.operation) {}

/-- A leaf right after the head that it has taken up; nothing if it has been taken up itself. -/
def pronounce (placement : Placement) (leaf : LeafId) : List LeafId :=
  if leaf ∈ placement.incorporated then [] else (placement.hosts.lookup leaf).toList ++ [leaf]

/-- The leaves that are pronounced under a node, in order. There is no result when the walk goes deeper than `fuel`, or
comes to a node that is not there. -/
def linearize (placement : Placement) (nodes : List Node) : Nat → NodeId → Option (List LeafId)
  | 0, _ => none
  | fuel + 1, id => do
    let n ← nodes[id]?
    match n.operation with
    | .lexical leaf => return placement.pronounce leaf
    | .merge head argument _ | .headMove head argument _ _ =>
      let h ← nodes[head]?
      let first ← placement.linearize nodes fuel head
      let moves := (placement.landings.lookup argument).isSome
      let second ← (if moves then some [] else placement.linearize nodes fuel argument)
      return if h.operation.isLexical then first ++ second else second ++ first
    | .move head mover _ =>
      let lands := (placement.landings.lookup mover).any (·.2 = id)
      let first ← (if lands then placement.linearize nodes fuel mover else some [])
      let second ← placement.linearize nodes fuel head
      return first ++ second

end Placement

namespace Derivation

variable (d : Derivation)

/-- The leaves in the order in which the walk through the nodes comes to them. -/
def linearize (fuel : Nat) : Option (List LeafId) := (Placement.ofNodes d.nodes).linearize d.nodes fuel 0

/-- All leaves in the order in which they are pronounced: what is pronounced, and what is checked against the sentence, is read
off the walk. No walk that ends goes deeper than there are nodes. -/
def order : List LeafId := (d.linearize d.nodes.length).getD []

def pronounced : List String := d.order.filterMap fun l => (d.leaf? l).bind (·.form)

end Derivation

end MinimalistGrammar
