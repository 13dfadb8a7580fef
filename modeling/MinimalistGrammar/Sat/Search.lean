import MinimalistGrammar.Sat.Session

/-!
The engine that answers sessions: search with conflict clauses.

A literal is written as its code, twice the variable, plus one if negated. Each clause of two or more
literals is watched at its first two. Decisions open levels; propagation fills them; a conflict is resolved
back to the first single cause on its level, which gives a new clause and the level to return to.
-/

namespace MinimalistGrammar.Sat

def Literal.code (l : Literal) : Nat := 2 * l.var + if l.negated then 1 else 0

/-- The state of a search. -/
structure Search where
  clauses : Array (Array Nat) := #[]
  /-- For each literal, the clauses that watch it. -/
  watchers : Array (Array Nat) := #[]
  /-- For each literal: `0` open, `1` true, `2` false. -/
  values : Array Nat := #[]
  /-- For each variable, the level at which it was assigned. -/
  levels : Array Nat := #[]
  /-- For each variable, one more than the clause that forced it; `0` for decisions. -/
  reasons : Array Nat := #[]
  /-- For each variable, the literal it last made true. -/
  phases : Array Nat := #[]
  /-- For each variable, when it last took part in a conflict. -/
  stamps : Array Nat := #[]
  /-- Marks of the variables met while a conflict is resolved. -/
  seen : Array Bool := #[]
  /-- The literals made true, in order. -/
  trail : Array Nat := #[]
  /-- The length of the trail at each decision. -/
  marks : Array Nat := #[]
  /-- How much of the trail has been propagated. -/
  head : Nat := 0
  conflicts : Nat := 0
  /-- Conflicts after which the search starts over from level zero. -/
  restartAt : Nat := 100
  restartGap : Nat := 100
  /-- The clauses contradict each other without any decision. -/
  inconsistent : Bool := false
  /-- Steps a search may take before its caller gives up. -/
  budget : Nat
deriving Inhabited

namespace Search

/-- More steps than any search takes. -/
def unlimited : Nat := 0x4000000000000000

/-- The steps that fit into one millisecond of waiting. -/
def stepsPerMillisecond : Nat := 0x10000000000

/-- A search without clauses whose caller waits that many milliseconds, or forever. -/
def empty (timeout : Option Nat) : Search :=
  { budget := min unlimited ((timeout.map (· * stepsPerMillisecond)).getD unlimited) }

def numVars (s : Search) : Nat := s.levels.size

def level (s : Search) : Nat := s.marks.size

def valueOf (s : Search) (code : Nat) : Nat := s.values.getD code 0

def clauseAt (s : Search) (c : Nat) : Array Nat := s.clauses.getD c #[]

/-- Makes room for a variable. -/
def addVar (s : Search) : Search :=
  let v := s.levels.size
  { s with
    watchers := (s.watchers.push #[]).push #[]
    values := (s.values.push 0).push 0
    levels := s.levels.push 0
    reasons := s.reasons.push 0
    phases := s.phases.push (2 * v + 1)
    stamps := s.stamps.push 0
    seen := s.seen.push false }

def ensureVars (n : Nat) (s : Search) : Search :=
  (n - s.numVars).fold (fun _ _ s => s.addVar) s

/-- Makes a literal true, for the given reason. -/
def assign (code reason : Nat) (s : Search) : Search :=
  let level := s.level
  { s with
    values := (s.values.setIfInBounds code 1).setIfInBounds (code ^^^ 1) 2
    levels := s.levels.setIfInBounds (code / 2) level
    reasons := s.reasons.setIfInBounds (code / 2) reason
    trail := s.trail.push code }

/-- Opens the last `count` assignments of the trail again. -/
def undo : Nat → Search → Search
  | 0, s => s
  | n + 1, s =>
    let code := s.trail.getD (s.trail.size - 1) 0
    undo n { s with
      values := (s.values.setIfInBounds code 0).setIfInBounds (code ^^^ 1) 0
      phases := s.phases.setIfInBounds (code / 2) code
      trail := s.trail.pop }

/-- Returns to a level. -/
def backtrack (level : Nat) (s : Search) : Search :=
  if level < s.level then
    let mark := s.marks.getD level 0
    let s := undo (s.trail.size - mark) s
    { s with marks := s.marks.shrink level, head := mark }
  else s

/-- The first position from `i` on whose literal is not false. -/
def openPosition (values : Array Nat) (lits : Array Nat) (i : Nat) : Option Nat :=
  if h : i < lits.size then
    if values.getD lits[i] 0 = 2 then openPosition values lits (i + 1) else some i
  else none
termination_by lits.size - i

def swapIn (c i j : Nat) (s : Search) : Search :=
  { s with clauses := s.clauses.modify c (·.swapIfInBounds i j) }

def watch (code c : Nat) (s : Search) : Search :=
  { s with watchers := s.watchers.modify code (·.push c) }

/-- Visits the clauses that watch a literal just made false, from position `i` on. Each finds another
literal to watch, or forces its other one, or is the conflict; `keep` are those that go on watching. -/
def visit (code : Nat) (watching : Array Nat) (i : Nat) (keep : Array Nat) (s : Search) :
    Search × Option Nat :=
  if h : i < watching.size then
    let c := watching[i]
    let first := (s.clauseAt c).getD 0 0
    let other := if first = code then (s.clauseAt c).getD 1 0 else first
    if s.valueOf other = 1 then visit code watching (i + 1) (keep.push c) s
    else
      let s := if first = code then s.swapIn c 0 1 else s
      match openPosition s.values (s.clauseAt c) 2 with
      | some k =>
        let next := (s.clauseAt c).getD k 0
        visit code watching (i + 1) keep ((s.swapIn c 1 k).watch next c)
      | none =>
        if s.valueOf other = 2 then
          let keep := keep.push c ++ watching.extract (i + 1) watching.size
          ({ s with watchers := s.watchers.setIfInBounds code keep }, some c)
        else visit code watching (i + 1) (keep.push c) (s.assign other (c + 1))
  else ({ s with watchers := s.watchers.setIfInBounds code keep }, none)
termination_by watching.size - i

/-- Draws the consequences of the trail, until nothing is left to draw or a clause is false. Every round
takes one literal of the trail, which holds at most one for each variable. -/
def propagate : Nat → Search → Search × Option Nat
  | 0, s => (s, none)
  | n + 1, s =>
    if h : s.head < s.trail.size then
      let code := s.trail[s.head] ^^^ 1
      let watching := s.watchers.getD code #[]
      let s := { s with head := s.head + 1, watchers := s.watchers.setIfInBounds code #[] }
      match visit code watching 0 #[] s with
      | (s, none) => propagate n s
      | (s, some conflict) => (s, some conflict)
    else (s, none)

/-- What resolving a conflict has gathered so far. -/
structure Resolution where
  search : Search
  /-- Marked literals of the current level that are still to be resolved. -/
  pending : Nat := 0
  /-- The literals of earlier levels. -/
  learnt : Array Nat := #[]

/-- Marks the literals of a clause, apart from the variable it forced. -/
def Resolution.absorb (r : Resolution) (forced : Option Nat) (c : Array Nat) : Resolution :=
  c.foldl (fun r code =>
    let v := code / 2
    let level := r.search.levels.getD v 0
    if some v = forced || r.search.seen.getD v true || level = 0 then r
    else
      let current := r.search.level
      let s := r.search
      let s := { s with
        seen := s.seen.setIfInBounds v true
        stamps := s.stamps.setIfInBounds v (s.conflicts + 1) }
      if level = current then { r with search := s, pending := r.pending + 1 }
      else { r with search := s, learnt := r.learnt.push code }) r

/-- Resolves along the trail, last assignment first, until one marked literal of the level is left: its
negation is forced by the others. -/
def resolve : Nat → Resolution → Nat × Resolution
  | 0, r => (0, r)
  | i + 1, r =>
    let code := r.search.trail.getD i 0
    let v := code / 2
    if r.search.seen.getD v false then
      let s := r.search
      let r := { r with search := { s with seen := s.seen.setIfInBounds v false } }
      if r.pending ≤ 1 then (code ^^^ 1, r)
      else
        let reason := r.search.clauseAt (r.search.reasons.getD v 1 - 1)
        resolve i ({ r with pending := r.pending - 1 }.absorb (some v) reason)
    else resolve i r

/-- Puts a literal of the highest level first. -/
def highestFirst (levels : Array Nat) (c : Array Nat) : Array Nat :=
  let top := (List.range c.size).foldl
    (fun best i => if levels.getD (c.getD i 0 / 2) 0 > levels.getD (c.getD best 0 / 2) 0 then i else best) 0
  c.swapIfInBounds 0 top

/-- Takes a clause whose first literal all others force, once the search is back at its level. -/
def learn (forced : Nat) (others : Array Nat) (s : Search) : Search :=
  let others := highestFirst s.levels others
  let s := s.backtrack (s.levels.getD (others.getD 0 0 / 2) 0)
  match others[0]? with
  | none => (s.backtrack 0).assign forced 0
  | some other =>
    let c := s.clauses.size
    let s := { s with clauses := s.clauses.push (#[forced] ++ others) }
    ((s.watch forced c).watch other c).assign forced (c + 1)

/-- Turns a conflict into a new clause and returns to where it forces something. -/
def recover (conflict : Nat) (s : Search) : Search :=
  let c := s.clauseAt conflict
  let (forced, r) := resolve s.trail.size (({ search := s } : Resolution).absorb none c)
  let s := r.search
  let s := { s with
    seen := r.learnt.foldl (fun seen code => seen.setIfInBounds (code / 2) false) s.seen
    conflicts := s.conflicts + 1 }
  s.learn forced r.learnt

/-- The open variable that took part in a conflict last, of several the first. -/
def chooseVar (s : Search) : Option Nat :=
  s.levels.size.fold (fun v _ best =>
    if s.valueOf (2 * v) ≠ 0 then best
    else
      match best with
      | none => some v
      | some b => if s.stamps.getD b 0 < s.stamps.getD v 0 then some v else best) none

def decide (v : Nat) (s : Search) : Search :=
  { s with marks := s.marks.push s.trail.size }.assign (s.phases.getD v (2 * v + 1)) 0

def model (numVars : Nat) (s : Search) : Model :=
  ⟨(Array.range numVars).map fun v => s.valueOf (2 * v) = 1⟩

/-- Searches until the clauses are decided or the steps are used up. -/
def run (numVars : Nat) : Nat → Search → Option Verdict × Search
  | 0, s => (none, s)
  | n + 1, s =>
    match s.propagate (s.numVars + 1) with
    | (s, some conflict) =>
      if s.level = 0 then (some .unsat, { s with inconsistent := true })
      else run numVars n (s.recover conflict)
    | (s, none) =>
      if s.restartAt ≤ s.conflicts then
        let gap := s.restartGap + s.restartGap / 4
        run numVars n { s.backtrack 0 with restartAt := s.conflicts + gap, restartGap := gap }
      else
        match s.chooseVar with
        | none => (some (.sat (s.model numVars)), s)
        | some v => run numVars n (s.decide v)

/-- Adds a clause at level zero, where false literals can go and a true one makes it redundant. -/
def add (c : Clause) (s : Search) : Search :=
  let s := (s.ensureVars (c.foldl (fun n l => max n (l.var + 1)) 0)).backtrack 0
  let codes := (Clause.sorted c).map Literal.code
  if Clause.hasOpposites (Clause.sorted c) || codes.any (s.valueOf · = 1) then s
  else
    match codes.filter (s.valueOf · ≠ 2) with
    | [] => { s with inconsistent := true }
    | [code] => s.assign code 0
    | first :: second :: rest =>
      let c := s.clauses.size
      let s := { s with clauses := s.clauses.push (first :: second :: rest).toArray }
      (s.watch first c).watch second c

/-- Decides the clauses, as long as the caller waits. -/
def solve (numVars : Nat) (s : Search) : Response × Search :=
  let s := (s.ensureVars numVars).backtrack 0
  if s.inconsistent && 0 < s.budget then (.reply (.ok .unsat), s)
  else
    match run numVars s.budget s with
    | (some verdict, s) => (.reply (.ok verdict), s)
    | (none, s) => (.silence, s)

instance : Engine Search where
  addClause c s := (.ok (), s.add c)
  solve := solve

end Search

/-- A session on the engine of this library. -/
def Session.start (f : Formula) (timeout : Option Nat) : Session Search :=
  .ofFormula f timeout (.empty timeout)

/-- Decides a formula in a session of its own. -/
def Formula.solve (f : Formula) (timeout : Option Nat) : Except SolverError Outcome :=
  (Session.start f timeout).solve.1

end MinimalistGrammar.Sat
