import MinimalistGrammar.Derivation.Basic
import MinimalistGrammar.Interface.Condition
import MinimalistGrammar.Reachability

/-!
What a derivation says of its words. A pronounced item has as object what its first selector merges, and as
indirect object what its second selector merges; its subject is the specifier of the head that selects its
projection first.
-/

namespace MinimalistGrammar

/-- A predicate with an argument in a role. -/
structure Predication where
  predicate : String
  role : Role
  argument : List String
deriving DecidableEq, Repr

namespace Predication

/-- Lists of words are ordered word by word, a list before those that go on. -/
def wordsLe : List String → List String → Bool
  | [], _ => true
  | _ :: _, [] => false
  | v :: vs, w :: ws => v < w || (v = w && wordsLe vs ws)

/-- Predications are ordered by predicate, then role, then argument. -/
def le (p q : Predication) : Bool :=
  p.predicate < q.predicate ||
    (p.predicate = q.predicate &&
      (p.role.rank < q.role.rank || (p.role = q.role && wordsLe p.argument q.argument)))

instance : ToString Predication where
  toString p := p.predicate ++ "(" ++ p.role.name ++ ": " ++ " ".intercalate p.argument ++ ")"

end Predication

namespace Tree

/-- The selectors, each with the phrase it merges. -/
def merges : Tree → List (FeatureRef × Tree)
  | lexical _ => []
  | merge _ h a c => (c.trigger, a) :: (h.merges ++ a.merges)
  | move h _ => h.merges

end Tree

namespace Derivation

/-- The words first merged in a phrase, in the order of the sentence. -/
def wordsOf (d : Derivation) (t : Tree) : List String :=
  let words := t.leaves.filterMap fun l => (d.leaf? l).bind fun leaf =>
    leaf.position.bind fun position => leaf.form.map fun form => (position, form)
  (words.mergeSort fun v w => v.1 ≤ w.1).map (·.2)

/-- The predication of a pronounced leaf. -/
def predication? (d : Derivation) (predicate : LeafId) (role : Role) (argument : Tree) :
    Option Predication :=
  ((d.leaf? predicate).bind (·.form)).map fun form => ⟨form, role, d.wordsOf argument⟩

/-- What one selector says: of its own leaf, and of the head it selects. -/
def predicationsAt (d : Derivation) (merges : List (FeatureRef × Tree)) (selector : FeatureRef)
    (argument : Tree) : List Predication :=
  match selector.index with
  | 0 =>
    let subject := (merges.lookup ⟨selector.leaf, 1⟩).bind (d.predication? argument.head .subj)
    (d.predication? selector.leaf .obj argument).toList ++ subject.toList
  | 1 => (d.predication? selector.leaf .iobj argument).toList
  | _ => []

/-- All predications, in order and each once. -/
def predications (d : Derivation) : List Predication :=
  let merges := d.tree.merges
  firstOccurrences
    ((merges.flatMap fun (selector, argument) => d.predicationsAt merges selector argument).mergeSort
      Predication.le)

end Derivation

end MinimalistGrammar
