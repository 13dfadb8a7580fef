import MinimalistGrammar.Derivation.Node

/-!
Derivations, as lists of leaves and nodes and as trees. A phrase that moves stands in the tree where it was first merged;
each movement names the licensee by which the phrase moves.
-/

namespace MinimalistGrammar

/-- How a phrase is built. -/
inductive Tree where
  /-- An item by itself. -/
  | lexical (leaf : LeafId)
  /-- The head selects the argument, and may also take up the head of the argument. -/
  | merge (takesHead : Bool) (head argument : Tree) (check : Check)
  /-- The phrase whose licensee is checked comes here from inside the head. -/
  | move (head : Tree) (check : Check)
deriving DecidableEq, Repr, Inhabited

namespace Tree

/-- The leaf that the phrase projects from. -/
def head : Tree → LeafId
  | lexical leaf => leaf
  | merge _ h _ _ => h.head
  | move h _ => h.head

/-- How many features of its head the phrase has used up as triggers. -/
def index : Tree → Nat
  | lexical _ => 0
  | merge _ h _ _ => h.index + 1
  | move h _ => h.index + 1

def isLexical : Tree → Bool
  | lexical _ => true
  | _ => false

/-- The leaves, heads before arguments. -/
def leaves : Tree → List LeafId
  | lexical leaf => [leaf]
  | merge _ h a _ => h.leaves ++ a.leaves
  | move h _ => h.leaves

/-- The checks, each before those of its head and argument. -/
def checks : Tree → List Check
  | lexical _ => []
  | merge _ h a c => c :: (h.checks ++ a.checks)
  | move h c => c :: h.checks

/-- All phrases inside the tree and the tree itself, each before its head and argument. -/
def phrases : Tree → List Tree
  | t@(lexical _) => [t]
  | t@(merge _ h a _) => t :: (h.phrases ++ a.phrases)
  | t@(move h _) => t :: h.phrases

def size : Tree → Nat
  | lexical _ => 1
  | merge _ h a _ => h.size + a.size + 1
  | move h _ => h.size + 1

def relabel (f : LeafId → LeafId) : Tree → Tree
  | lexical leaf => lexical (f leaf)
  | merge b h a c => merge b (h.relabel f) (a.relabel f) (rename c)
  | move h c => move (h.relabel f) (rename c)
where
  rename (c : Check) : Check := ⟨⟨f c.trigger.leaf, c.trigger.index⟩, ⟨f c.target.leaf, c.target.index⟩⟩

/-- The phrase at a node; none if a node is not there, or lies deeper than the fuel goes. -/
def ofNodes (nodes : List Node) : Nat → NodeId → Option Tree
  | 0, _ => none
  | fuel + 1, id => do
    match (← nodes[id]?).operation with
    | .lexical leaf => return lexical leaf
    | .merge h a c => return merge false (← ofNodes nodes fuel h) (← ofNodes nodes fuel a) c
    | .headMove h a c _ => return merge true (← ofNodes nodes fuel h) (← ofNodes nodes fuel a) c
    | .move h _ c => return move (← ofNodes nodes fuel h) c

end Tree

/-- Node 0 is the root. -/
structure Derivation where
  leaves : List Leaf
  nodes : List Node
deriving DecidableEq, Repr

namespace Derivation

variable (d : Derivation)

/-- The phrase at the root. -/
def tree : Tree := (Tree.ofNodes d.nodes d.nodes.length 0).getD default

def leaf? (l : LeafId) : Option Leaf := d.leaves[l]?

def feature? (f : FeatureRef) : Option Feature := (d.leaf? f.leaf).bind fun l => l.features[f.index]?

def label (l : LeafId) : String := ((d.leaf? l).map (·.item)).getD ""

/-- The compact notation of a leaf's feature. -/
def compact (f : FeatureRef) : String := ((d.feature? f).map (·.compact)).getD "?"

/-- The category at the root, the one feature that nothing checks. -/
def completion? : Option FeatureRef := do
  let root ← d.nodes[0]?
  let f : FeatureRef := ⟨root.head, root.index⟩
  if (d.feature? f).any (·.polarity = .category) then some f else none

end Derivation

end MinimalistGrammar
