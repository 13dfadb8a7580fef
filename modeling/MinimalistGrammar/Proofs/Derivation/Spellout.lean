import MinimalistGrammar.Derivation.Basic

/-!
How a derivation is pronounced. A complement follows its lexical head; specifiers and moved phrases precede.
A phrase that moves is pronounced at its last landing alone, and a head that was taken up right before its
host.
-/

namespace MinimalistGrammar

namespace Tree

/-- The hosts, each with the leaf that it takes up. -/
def hosts : Tree → List (LeafId × LeafId)
  | lexical _ => []
  | merge takesHead h a c =>
    (if takesHead then [(c.trigger.leaf, c.target.leaf)] else []) ++ h.hosts ++ a.hosts
  | move h _ => h.hosts

/-- The licensees by which phrases move. -/
def landings : Tree → List FeatureRef
  | lexical _ => []
  | merge _ h a _ => h.landings ++ a.landings
  | move h c => c.target :: h.landings

end Tree

/-- A licensee is its phrase's last when no other of that leaf comes later. -/
def isLastLanding (landings : List FeatureRef) (f : FeatureRef) : Bool :=
  landings.all fun g => g.leaf ≠ f.leaf || g.index ≤ f.index

/-- A phrase being pronounced: the leaves it is sure to hold, and the phrases inside it, under their heads,
that are still to move out. -/
structure Spellout where
  order : List LeafId
  waiting : List (LeafId × List LeafId) := []
deriving DecidableEq, Repr

namespace Spellout

/-- Takes the phrase of a leaf out of those that wait. -/
def take (leaf : LeafId) (s : Spellout) : List LeafId × List (LeafId × List LeafId) :=
  ((s.waiting.lookup leaf).getD [], s.waiting.filter (·.1 ≠ leaf))

/-- A leaf by itself, with the head that it has taken up; nothing if it has been taken up itself. -/
def ofLeaf (hosts : List (LeafId × LeafId)) (leaf : LeafId) : Spellout :=
  if hosts.any (·.2 = leaf) then { order := [] }
  else { order := (hosts.lookup leaf).toList ++ [leaf] }

end Spellout

namespace Tree

/-- Spells a tree out, given all hosts and landings of the derivation. -/
def spell (hosts : List (LeafId × LeafId)) (landings : List FeatureRef) : Tree → Spellout
  | lexical leaf => .ofLeaf hosts leaf
  | merge _ h a _ =>
    let head := h.spell hosts landings
    let argument := a.spell hosts landings
    if landings.any (·.leaf = a.head) then
      ⟨head.order, (a.head, argument.order) :: (head.waiting ++ argument.waiting)⟩
    else if h.isLexical then ⟨head.order ++ argument.order, head.waiting ++ argument.waiting⟩
    else ⟨argument.order ++ head.order, head.waiting ++ argument.waiting⟩
  | move h c =>
    let head := h.spell hosts landings
    if isLastLanding landings c.target then
      let (phrase, waiting) := head.take c.target.leaf
      ⟨phrase ++ head.order, waiting⟩
    else head

/-- All leaves in the order in which they are pronounced. -/
def spellout (t : Tree) : List LeafId := (t.spell t.hosts t.landings).order

end Tree

end MinimalistGrammar
