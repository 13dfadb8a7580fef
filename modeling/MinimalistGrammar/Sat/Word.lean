import MinimalistGrammar.Sat.Formula

/-!
How a formula is kept in memory. A literal is one word of 32 bits, with its variable above and its sign in the lowest bit, and
variables are counted in such a word as well.

There is room for `Literal.capacity` variables. The literals of a further one have lost the highest bit of the variable, and are
those of a variable handed out long before.
-/

namespace MinimalistGrammar.Sat

namespace Literal

/-- How many variables have literals of their own: half as many as there are words. -/
def capacity : Nat := 0x80000000

def word (l : Literal) : UInt32 := (UInt32.ofNat l.var <<< 1) ||| (if l.negated then 1 else 0)

def ofWord (w : UInt32) : Literal := ⟨(w >>> 1).toNat, w &&& 1 == 1⟩

end Literal

/-- A clause of words. -/
abbrev WordClause := List UInt32

namespace WordClause

def Holds (a : Assignment) (c : WordClause) : Prop := ∃ w ∈ c, (Literal.ofWord w).value a = true

instance (a : Assignment) (c : WordClause) : Decidable (c.Holds a) :=
  inferInstanceAs (Decidable (∃ w ∈ c, (Literal.ofWord w).value a = true))

/-- Leaves one word of each run of equal ones. -/
def dropRepeats : WordClause → WordClause
  | v :: w :: rest => if v = w then dropRepeats (w :: rest) else v :: dropRepeats (w :: rest)
  | ws => ws

/-- Whether two neighbours differ in the sign only. -/
def hasOpposites : WordClause → Bool
  | v :: w :: rest => w == v ^^^ 1 || hasOpposites (w :: rest)
  | _ => false

/-- The words of a disjunction in increasing order, each once, or `none` when it is always true. The words `0` and `1` are those
of the constants. -/
def normalize (ws : List UInt32) : Option WordClause :=
  let ws := ws.filter (· != 1)
  if 0 ∈ ws then none
  else
    let c := dropRepeats (ws.mergeSort (· ≤ ·))
    if c.hasOpposites then none
    else if c.isEmpty then some [1]
    else some c

end WordClause

/-- A formula in memory. -/
structure WordFormula where
  /-- Wraps around when there are too many to count. -/
  numVars : UInt32 := 1
  clauses : List WordClause := [[0]]
deriving DecidableEq

namespace WordFormula

def Holds (a : Assignment) (f : WordFormula) : Prop := ∀ c ∈ f.clauses, c.Holds a

instance (a : Assignment) (f : WordFormula) : Decidable (f.Holds a) :=
  inferInstanceAs (Decidable (∀ c ∈ f.clauses, c.Holds a))

/-- The positive literal of a further variable. -/
def fresh (f : WordFormula) : UInt32 × WordFormula := (f.numVars <<< 1, { f with numVars := f.numVars + 1 })

def push (f : WordFormula) (ws : List UInt32) : WordFormula :=
  match WordClause.normalize ws with
  | some c => { f with clauses := f.clauses ++ [c] }
  | none => f

end WordFormula

/-- What memory holds of a formula. -/
def Formula.stored (f : Formula) : WordFormula where
  numVars := .ofNat f.numVars
  clauses := f.clauses.toList.map (·.map Literal.word)

end MinimalistGrammar.Sat
