import MinimalistGrammar.Sat.Formula

/-!
Bounds on how many of a list of literals hold. Short lists exclude each pair; longer ones, and bounds
above one, run a sequential counter whose registers are new variables.
-/

namespace MinimalistGrammar.Sat

/-- How many positions of the list hold a true literal. -/
def countTrue (a : Assignment) (lits : List Literal) : Nat := lits.countP (·.value a)

namespace Builder

def forbidPairs : List Literal → Builder Unit
  | [] => pure ()
  | l :: rest => do
    rest.forM fun m => forbid [l, m]
    forbidPairs rest

/-- The registers after the first literal: at most the lowest is on. -/
def startCount (x : Literal) : List Literal → Builder Unit
  | [] => pure ()
  | register :: higher => do
    implies [x] register
    higher.forM fun r => addClause [-r]

/-- Each register is on when it was on before, or when `x` holds and the one below it was on.
`below` stands for the register under the first of the list. -/
def carryCount (x below : Literal) : List Literal → List Literal → Builder Unit
  | old :: olds, new :: news => do
    implies [x, below] new
    implies [old] new
    carryCount x old olds news
  | _, _ => pure ()

/-- With the highest register on, `x` would be one too many. -/
def forbidOverflow (x : Literal) (registers : List Literal) : Builder Unit :=
  registers.getLast?.forM fun full => forbid [x, full]

/-- Counts the remaining literals on top of the registers `old`. The last literal has no registers of
its own. -/
def continueCount (old : List Literal) : List Literal → List (List Literal) → Builder Unit
  | x :: xs, new :: rows => do
    carryCount x .top old new
    forbidOverflow x old
    continueCount new xs rows
  | x :: _, [] => forbidOverflow x old
  | [], _ => pure ()

/-- Counts the literals in the given registers, one row for each literal but the last. -/
def count : List Literal → List (List Literal) → Builder Unit
  | x :: xs, row :: rows => do
    startCount x row
    continueCount row xs rows
  | _, _ => pure ()

/-- At most `bound` positions of the list hold. Register `j` of row `i` is on when more than `j` of the
literals up to the `i`-th are true. -/
def atMost (lits : List Literal) (bound : Nat) : Builder Unit :=
  if lits.length ≤ bound then pure ()
  else if bound = 0 then lits.forM fun l => addClause [-l]
  else do
    let rows ← (List.replicate (lits.length - 1) bound).mapM freshList
    count lits rows

/-- The longest list whose pairs are excluded one by one. -/
def pairwiseLimit : Nat := 6

/-- At most one position of the list holds. -/
def atMostOne (lits : List Literal) : Builder Unit :=
  if lits.length ≤ pairwiseLimit then forbidPairs lits else atMost lits 1

def exactlyOne (lits : List Literal) : Builder Unit := do
  addClause lits
  atMostOne lits

end Builder

end MinimalistGrammar.Sat
