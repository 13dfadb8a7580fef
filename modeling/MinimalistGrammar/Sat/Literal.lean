/-!
Literals of propositional logic and the values they take.

Variable `0` is kept for the constant: its two literals are `Literal.top` and `Literal.bottom`, so a
constant can stand wherever a literal can.
-/

namespace MinimalistGrammar.Sat

/-- A variable, or its negation. -/
structure Literal where
  var : Nat
  negated : Bool
deriving DecidableEq, Repr, Inhabited

/-- A truth value for every variable. -/
abbrev Assignment := Nat → Bool

namespace Literal

def top : Literal := ⟨0, false⟩

def bottom : Literal := ⟨0, true⟩

def ofBool (value : Bool) : Literal := if value then top else bottom

instance : Neg Literal := ⟨fun l => { l with negated := !l.negated }⟩

/-- Literals are ordered by variable, the positive one first. -/
instance : LT Literal :=
  ⟨fun l m => l.var < m.var ∨ (l.var = m.var ∧ l.negated = false ∧ m.negated = true)⟩

instance (l m : Literal) : Decidable (l < m) :=
  inferInstanceAs (Decidable (l.var < m.var ∨ (l.var = m.var ∧ l.negated = false ∧ m.negated = true)))

def value (a : Assignment) (l : Literal) : Bool := a l.var != l.negated

instance : ToString Literal where
  toString l := (if l.negated then "¬x" else "x") ++ toString l.var

@[simp] theorem var_neg (l : Literal) : (-l).var = l.var := rfl

@[simp] theorem negated_neg (l : Literal) : (-l).negated = !l.negated := rfl

@[simp] theorem neg_neg (l : Literal) : - -l = l := by
  cases l
  simp [Neg.neg]

@[simp] theorem value_neg (a : Assignment) (l : Literal) : (-l).value a = !l.value a := by
  cases h : a l.var <;> cases k : l.negated <;> simp [value, h, k]

theorem lt_iff {l m : Literal} :
    l < m ↔ l.var < m.var ∨ (l.var = m.var ∧ l.negated = false ∧ m.negated = true) := Iff.rfl

end Literal

/-- An assignment given by the values of the first variables; all others are false. -/
structure Model where
  values : Array Bool
deriving DecidableEq, Repr

namespace Model

/-- The values a model gives, false beyond its last variable. -/
def assignment (m : Model) : Assignment := fun v => m.values.getD v false

def value (m : Model) (l : Literal) : Bool := l.value m.assignment

def size (m : Model) : Nat := m.values.size

end Model

end MinimalistGrammar.Sat
