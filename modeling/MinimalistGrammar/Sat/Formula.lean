import MinimalistGrammar.Sat.Literal

/-!
Formulas in conjunctive normal form, under construction.

`Builder` is the state of a construction: it hands out fresh variables and takes clauses. A clause is
stored in normal form: constants folded away, literals strictly increasing, no variable twice. Variables are counted without
bound here; `WordFormula` is the formula as it is kept in memory, with room for `Literal.capacity` of them.
-/

namespace MinimalistGrammar.Sat

abbrev Clause := List Literal

namespace Clause

/-- A clause holds when some literal of it is true. -/
def Holds (a : Assignment) (c : Clause) : Prop := ∃ l ∈ c, l.value a = true

instance (a : Assignment) (c : Clause) : Decidable (c.Holds a) :=
  inferInstanceAs (Decidable (∃ l ∈ c, l.value a = true))

/-- Puts a literal in its place among increasing ones, unless it is there already. -/
def insert (l : Literal) : Clause → Clause
  | [] => [l]
  | m :: rest => if l < m then l :: m :: rest else if l = m then m :: rest else m :: insert l rest

/-- The literals in increasing order, each once. -/
def sorted (lits : List Literal) : Clause := lits.foldr insert []

/-- Whether two neighbours are a variable and its negation. -/
def hasOpposites : Clause → Bool
  | l :: m :: rest => m == -l || hasOpposites (m :: rest)
  | _ => false

/-- The normal form of a disjunction, or `none` when it is always true. The empty disjunction is
written as the false constant alone. -/
def normalize (lits : List Literal) : Option Clause :=
  let lits := lits.filter (· != .bottom)
  if .top ∈ lits then none
  else
    let c := sorted lits
    if c.hasOpposites then none
    else if c.isEmpty then some [.bottom]
    else some c

@[simp] theorem holds_nil (a : Assignment) : Clause.Holds a ([] : Clause) ↔ False := by simp [Holds]

@[simp] theorem holds_cons (a : Assignment) (l : Literal) (c : Clause) :
    Clause.Holds a (l :: c) ↔ l.value a = true ∨ Clause.Holds a c := by simp [Holds]

end Clause

/-- A conjunction of clauses. The first clause makes the constant variable true. -/
structure Formula where
  /-- Variables handed out so far, the constant included. -/
  numVars : Nat := 1
  /-- In the order they were added. -/
  clauses : Array Clause := #[[.top]]
deriving DecidableEq, Repr, Inhabited

namespace Formula

instance : EmptyCollection Formula := ⟨{}⟩

/-- A formula holds when each of its clauses does. -/
def Holds (a : Assignment) (f : Formula) : Prop := ∀ c ∈ f.clauses, c.Holds a

instance (a : Assignment) (f : Formula) : Decidable (f.Holds a) :=
  inferInstanceAs (Decidable (∀ c ∈ f.clauses, c.Holds a))

/-- The formula with one more disjunction; an always true one adds nothing. -/
def push (f : Formula) (lits : List Literal) : Formula :=
  match Clause.normalize lits with
  | some c => { f with clauses := f.clauses.push c }
  | none => f

end Formula

/-- A construction of a formula that yields a value. -/
abbrev Builder := StateM Formula

namespace Builder

def fresh : Builder Literal :=
  modifyGet fun f => (⟨f.numVars, false⟩, { f with numVars := f.numVars + 1 })

def freshList : Nat → Builder (List Literal)
  | 0 => pure []
  | n + 1 => do
    let l ← fresh
    let rest ← freshList n
    pure (l :: rest)

/-- How many variables and clauses there are. -/
def size : Builder (Nat × Nat) := modifyGet fun f => ((f.numVars, f.clauses.size), f)

def addClause (lits : List Literal) : Builder Unit := modify (·.push lits)

def impliesAny (premises conclusions : List Literal) : Builder Unit :=
  addClause (premises.map (- ·) ++ conclusions)

def implies (premises : List Literal) (conclusion : Literal) : Builder Unit :=
  impliesAny premises [conclusion]

def forbid (lits : List Literal) : Builder Unit := addClause (lits.map (- ·))

/-- Makes `output` equivalent to the disjunction. -/
def defineOr (output : Literal) (lits : List Literal) : Builder Unit := do
  lits.forM fun l => implies [l] output
  impliesAny [output] lits

/-- A literal equivalent to the conjunction: a new one, unless there is nothing to join. -/
def and : List Literal → Builder Literal
  | [] => pure .top
  | [l] => pure l
  | lits => do
    let output ← fresh
    lits.forM fun l => implies [output] l
    implies lits output
    pure output

/-- A literal equivalent to the disjunction: a new one, unless there is nothing to join. -/
def or : List Literal → Builder Literal
  | [] => pure .bottom
  | [l] => pure l
  | lits => do
    let output ← fresh
    defineOr output lits
    pure output

end Builder

end MinimalistGrammar.Sat
