import MinimalistGrammar.Lexicon.Feature

/-!
What a derivation consists of: leaves, which are instances of lexical items, and nodes, which are built from leaves and from
other nodes. Both go by their numbers.
-/

namespace MinimalistGrammar

abbrev LeafId := Nat

/-- An instance of a lexical item. -/
structure Leaf where
  /-- The label of the item. -/
  item : String
  /-- How it is pronounced; absent for covert items. -/
  form : Option String
  meaning : Option String
  features : List Feature
  /-- Its place in the sentence; absent for covert items. -/
  position : Option Nat
deriving DecidableEq, Repr

def Leaf.isCovert (l : Leaf) : Bool := l.form.isNone

/-- A feature of a leaf. -/
structure FeatureRef where
  leaf : LeafId
  index : Nat
deriving DecidableEq, Repr

/-- Two features that are used up together. -/
structure Check where
  trigger : FeatureRef
  target : FeatureRef
deriving DecidableEq, Repr

abbrev NodeId := Nat

/-- How a node is built from others. -/
inductive Operation where
  | lexical (leaf : LeafId)
  | merge (head argument : NodeId) (check : Check)
  /-- A merge by which the head also takes up a leaf. -/
  | headMove (head argument : NodeId) (check : Check) (incorporated : LeafId)
  /-- The mover is the phrase as it was first merged. -/
  | move (head mover : NodeId) (check : Check)
deriving DecidableEq, Repr

structure Node where
  operation : Operation
  /-- The leaf it projects from. -/
  head : LeafId
  /-- The next feature of that leaf. -/
  index : Nat
deriving DecidableEq, Repr

namespace Operation

/-- The features used up here. -/
def check? : Operation → Option Check
  | lexical _ => none
  | merge _ _ c | headMove _ _ c _ | move _ _ c => some c

def isLexical : Operation → Bool
  | lexical _ => true
  | _ => false

def isMove : Operation → Bool
  | move _ _ _ => true
  | _ => false

def isHeadMove : Operation → Bool
  | headMove _ _ _ _ => true
  | _ => false

end Operation

end MinimalistGrammar
