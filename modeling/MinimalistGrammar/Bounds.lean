/-!
Bounds on what a derivation may use. They fix the size of the search space.
-/

namespace MinimalistGrammar

structure Bounds where
  /-- Covert items. -/
  emptyItems : Nat := 4
  /-- Licensees checked by movement. -/
  movements : Nat := 4
  /-- Selectors that attract a head. -/
  headMovements : Nat := 2
deriving DecidableEq, Repr, Inhabited

namespace Bounds

/-- Bounds are compared part by part, so what fits into the smaller fits into the larger. -/
instance : LE Bounds :=
  ⟨fun a b => a.emptyItems ≤ b.emptyItems ∧ a.movements ≤ b.movements ∧
    a.headMovements ≤ b.headMovements⟩

instance (a b : Bounds) : Decidable (a ≤ b) := inferInstanceAs (Decidable (_ ∧ _ ∧ _))

theorem le_iff {a b : Bounds} :
    a ≤ b ↔ a.emptyItems ≤ b.emptyItems ∧ a.movements ≤ b.movements ∧
      a.headMovements ≤ b.headMovements := Iff.rfl

end Bounds

end MinimalistGrammar
