import MinimalistGrammar.Derivation.Basic
import MinimalistGrammar.Grouping

/-!
What a derivation uses of its lexicon and of its bounds.
-/

namespace MinimalistGrammar

/-- How often an item is used. -/
structure ItemUsage where
  label : String
  form : Option String
  count : Nat
deriving DecidableEq, Repr

structure Usage where
  /-- In the order of first use. -/
  items : List ItemUsage
  emptyItems : Nat
  movements : Nat
  headMovements : Nat
deriving DecidableEq, Repr

namespace Derivation

def usage (d : Derivation) : Usage where
  items := (groupByKey (d.leaves.map fun l => (l.item, l.form))).map fun (label, forms) =>
    ⟨label, forms.head?.join, forms.length⟩
  emptyItems := d.leaves.countP (·.isCovert)
  movements := d.nodes.countP (·.operation.isMove)
  headMovements := d.nodes.countP (·.operation.isHeadMove)

end Derivation

end MinimalistGrammar
