import MinimalistGrammar.Proofs.Sat.Cardinality
import MinimalistGrammar.Proofs.Sat.Enumeration

/-!
Formulas that speak of no variables but those that have been handed out. A construction that is given only literals of
such variables makes only such clauses, and the literals of its result are of such variables too.
-/

namespace MinimalistGrammar.Sat

namespace Formula

variable {f : Formula} {a : Assignment} {lits : List Literal}

/-- The constant has its clause, and all clauses are over the variables of the formula. -/
structure IsProper (f : Formula) : Prop where
  constant : [Literal.top] ∈ f.clauses
  closed : f.IsClosed

theorem isProper_empty : IsProper ∅ where
  constant := by simp [EmptyCollection.emptyCollection]
  closed := by
    intro c hc l hl
    simp only [EmptyCollection.emptyCollection, List.mem_singleton] at hc
    subst hc
    rw [List.mem_singleton.1 hl]
    exact Nat.one_pos

theorem IsProper.pos (hf : f.IsProper) : 0 < f.numVars :=
  hf.closed _ (Array.mem_toList_iff.2 hf.constant) _ (.head _)

theorem IsProper.value_zero (hf : f.IsProper) (ha : f.Holds a) : a 0 = true := by
  have h := ha _ hf.constant
  simpa [Literal.value, Literal.top] using h

theorem IsProper.fresh (hf : f.IsProper) : (Builder.formula Builder.fresh f).IsProper where
  constant := hf.constant
  closed c hc l hl := Nat.lt_succ_of_lt (hf.closed c hc l hl)

theorem IsProper.push (hf : f.IsProper) (hl : ∀ l ∈ lits, l.var < f.numVars) : (f.push lits).IsProper where
  constant := mem_push.2 (.inl hf.constant)
  closed := by
    intro c hc l hlc
    rw [numVars_push]
    rcases mem_push.1 (Array.mem_toList_iff.1 hc) with hc | hc
    · exact hf.closed c (Array.mem_toList_iff.2 hc) l hlc
    · rcases Clause.mem_of_mem_normalize hc hlc with h | rfl
      · exact hl l h
      · exact hf.pos

end Formula

namespace Valuation

variable {v : Valuation} {n : Nat} {hn : 0 < n} {l : Literal} {p : Prop}

/-- The same values, known of the first variables only. -/
def restrict (v : Valuation) (n : Nat) (hn : 0 < n) : Valuation := ⟨(· < n), v.value, hn, v.value_zero⟩

theorem Denotes.restrict (h : v.Denotes l p) (hl : l.var < n) : (v.restrict n hn).Denotes l p := ⟨hl, h.2⟩

end Valuation

namespace Builder

variable {α β : Type} {n m k : Nat} {b : Builder α} {g : α → Builder β} {M : α → Literal → Prop}
  {N : β → Literal → Prop} {l l' : Literal} {lits lits' : List Literal} {rows : List (List Literal)}

def InScope (n : Nat) (M : Literal → Prop) : Prop := ∀ l, M l → l.var < n

theorem InScope.mono {M : Literal → Prop} (hM : InScope n M) (h : n ≤ m) : InScope m M := fun l hl =>
  Nat.lt_of_lt_of_le (hM l hl) h

/-- Where at least `n` variables have been handed out, the construction makes a proper formula of a proper one, and what
its result mentions are literals of that formula. -/
def Scoped (n : Nat) (b : Builder α) (M : α → Literal → Prop) : Prop :=
  ∀ f, f.IsProper → n ≤ f.numVars → (formula b f).IsProper ∧ f.numVars ≤ (formula b f).numVars ∧
    InScope (formula b f).numVars (M (result b f))

def StaysInScope (n : Nat) (b : Builder Unit) : Prop := Scoped n b fun _ _ => False

theorem Scoped.mono (hb : Scoped n b M) (h : n ≤ m) : Scoped m b M := fun f hf hm => hb f hf (Nat.le_trans h hm)

theorem scoped_pure {x : α} (h : InScope n (M x)) : Scoped n (pure x) M := fun _ hf hn =>
  ⟨hf, Nat.le_refl _, h.mono hn⟩

theorem Scoped.bind (hb : Scoped n b M)
    (hg : ∀ m x, n ≤ m → InScope m (M x) → Scoped m (g x) N) : Scoped n (b >>= g) N := by
  intro f hf hn
  obtain ⟨hp, hle, hm⟩ := hb f hf hn
  obtain ⟨hp', hle', hm'⟩ := hg _ _ (Nat.le_trans hn hle) hm _ hp (Nat.le_refl _)
  exact ⟨hp', Nat.le_trans hle hle', hm'⟩

theorem Scoped.seq {b : Builder Unit} {g : Unit → Builder β} (hb : StaysInScope n b) (hg : Scoped n (g ()) N) :
    Scoped n (b >>= g) N := Scoped.bind hb fun _ _ hle _ => hg.mono hle

theorem staysInScope_pure : StaysInScope n (pure ()) := scoped_pure fun _ h => h.elim

theorem scoped_ite {c : Prop} [Decidable c] {b' : Builder α} (hb : Scoped n b M) (hb' : Scoped n b' M) :
    Scoped n (if c then b else b') M := by
  split
  · exact hb
  · exact hb'

theorem Scoped.mapM {g : α → Builder β} {xs : List α} (hg : ∀ x ∈ xs, Scoped n (g x) N) :
    Scoped n (xs.mapM g) fun ys l => ∃ y ∈ ys, N y l := by
  induction xs generalizing n with
  | nil => exact scoped_pure fun l ⟨_, hy, _⟩ => by cases hy
  | cons x xs ih =>
    rw [List.mapM_cons]
    refine (hg x (.head _)).bind fun m y hle hy => ?_
    refine (ih fun z hz => (hg z (.tail _ hz)).mono hle).bind fun m' ys hle' hys => scoped_pure fun l ⟨z, hz, hl⟩ => ?_
    rcases List.mem_cons.1 hz with rfl | hz
    · exact Nat.lt_of_lt_of_le (hy l hl) hle'
    · exact hys l ⟨z, hz, hl⟩

theorem StaysInScope.forM {g : α → Builder Unit} {xs : List α} (hg : ∀ x ∈ xs, StaysInScope n (g x)) :
    StaysInScope n (xs.forM g) := by
  induction xs with
  | nil => exact staysInScope_pure
  | cons x xs ih => exact Scoped.seq (g := fun _ => xs.forM g) (hg x (.head _)) (ih fun z hz => hg z (.tail _ hz))

theorem StaysInScope.option_forM {g : α → Builder Unit} {o : Option α} (hg : ∀ x ∈ o, StaysInScope n (g x)) :
    StaysInScope n (o.forM g) := by
  cases o with
  | none => exact staysInScope_pure
  | some x => exact hg x rfl

section Leaves

theorem scoped_fresh : Scoped n fresh Eq := by
  intro f hf _
  refine ⟨hf.fresh, Nat.le_succ _, ?_⟩
  rintro _ rfl
  exact Nat.lt_succ_self _

theorem scoped_freshList (k : Nat) : Scoped n (freshList k) fun ls l => l ∈ ls := by
  induction k generalizing n with
  | zero => exact scoped_pure fun l h => by cases h
  | succ k ih =>
    refine scoped_fresh.bind fun m x _ hx => ih.bind fun m' xs hle hxs => scoped_pure fun l hl => ?_
    rcases List.mem_cons.1 hl with rfl | hl
    · exact Nat.lt_of_lt_of_le (hx _ rfl) hle
    · exact hxs l hl

theorem staysInScope_addClause (hl : ∀ l ∈ lits, l.var < n) : StaysInScope n (addClause lits) := by
  intro f hf hn
  refine ⟨hf.push fun l h => Nat.lt_of_lt_of_le (hl l h) hn, ?_, fun _ h => h.elim⟩
  rw [formula_addClause, Formula.numVars_push]

theorem forall_neg_lt (h : ∀ l ∈ lits, l.var < n) : ∀ l ∈ lits.map (- ·), l.var < n := by
  intro l hl
  obtain ⟨l, hm, rfl⟩ := List.mem_map.1 hl
  exact h l hm

theorem staysInScope_impliesAny (h : ∀ l ∈ lits, l.var < n) (h' : ∀ l ∈ lits', l.var < n) :
    StaysInScope n (impliesAny lits lits') :=
  staysInScope_addClause fun l hl => (List.mem_append.1 hl).elim (forall_neg_lt h l) (h' l)

theorem staysInScope_implies (h : ∀ l ∈ lits, l.var < n) (h' : l.var < n) : StaysInScope n (implies lits l) :=
  staysInScope_impliesAny h (by simpa using h')

theorem staysInScope_forbid (h : ∀ l ∈ lits, l.var < n) : StaysInScope n (forbid lits) :=
  staysInScope_addClause (forall_neg_lt h)

theorem staysInScope_defineOr (hl : l.var < n) (h : ∀ l ∈ lits, l.var < n) : StaysInScope n (defineOr l lits) :=
  Scoped.seq (StaysInScope.forM fun x hx => staysInScope_implies (by simpa using h x hx) hl)
    (staysInScope_impliesAny (by simpa using hl) h)

theorem scoped_or (hn : 0 < n) (h : ∀ l ∈ lits, l.var < n) : Scoped n (or lits) Eq := by
  unfold or
  split
  · exact scoped_pure fun _ hl => hl ▸ hn
  · exact scoped_pure fun _ hl => hl ▸ h _ (.head _)
  · refine scoped_fresh.bind fun m x hle hx => Scoped.seq ?_ (scoped_pure hx)
    exact staysInScope_defineOr (hx x rfl) fun l hl => Nat.lt_of_lt_of_le (h l hl) hle

theorem scoped_and (hn : 0 < n) (h : ∀ l ∈ lits, l.var < n) : Scoped n (and lits) Eq := by
  unfold and
  split
  · exact scoped_pure fun _ hl => hl ▸ hn
  · exact scoped_pure fun _ hl => hl ▸ h _ (.head _)
  · refine scoped_fresh.bind fun m x hle hx => ?_
    have h : ∀ l ∈ lits, l.var < m := fun l hl => Nat.lt_of_lt_of_le (h l hl) hle
    refine Scoped.seq (StaysInScope.forM fun y hy => ?_) (Scoped.seq ?_ (scoped_pure hx))
    · exact staysInScope_implies (by simpa using hx x rfl) (h y hy)
    · exact staysInScope_implies h (hx x rfl)

end Leaves

section Counting

theorem staysInScope_forbidPairs (h : ∀ l ∈ lits, l.var < n) : StaysInScope n (forbidPairs lits) := by
  induction lits with
  | nil => exact staysInScope_pure
  | cons l rest ih =>
    obtain ⟨hl, hrest⟩ := List.forall_mem_cons.1 h
    exact Scoped.seq (StaysInScope.forM fun x hx => staysInScope_forbid (by simpa using ⟨hl, hrest x hx⟩)) (ih hrest)

theorem staysInScope_startCount (hl : l.var < n) (h : ∀ l ∈ lits, l.var < n) : StaysInScope n (startCount l lits) := by
  cases lits with
  | nil => exact staysInScope_pure
  | cons r higher =>
    obtain ⟨hr, hhigher⟩ := List.forall_mem_cons.1 h
    refine Scoped.seq (staysInScope_implies (by simpa using hl) hr) (StaysInScope.forM fun x hx => ?_)
    exact staysInScope_addClause (by simpa using hhigher x hx)

theorem staysInScope_carryCount (hl : l.var < n) (hl' : l'.var < n) (h : ∀ l ∈ lits, l.var < n)
    (h' : ∀ l ∈ lits', l.var < n) : StaysInScope n (carryCount l l' lits lits') := by
  induction lits generalizing l' lits' with
  | nil => exact staysInScope_pure
  | cons o olds ih =>
    cases lits' with
    | nil => exact staysInScope_pure
    | cons r news =>
      obtain ⟨ho, holds⟩ := List.forall_mem_cons.1 h
      obtain ⟨hr, hnews⟩ := List.forall_mem_cons.1 h'
      exact Scoped.seq (staysInScope_implies (by simpa using ⟨hl, hl'⟩) hr)
        (Scoped.seq (staysInScope_implies (by simpa using ho) hr) (ih ho holds hnews))

theorem staysInScope_forbidOverflow (hl : l.var < n) (h : ∀ l ∈ lits, l.var < n) :
    StaysInScope n (forbidOverflow l lits) :=
  StaysInScope.option_forM fun x hx => staysInScope_forbid (by simpa using ⟨hl, h x (List.mem_of_getLast? hx)⟩)

theorem staysInScope_continueCount (hn : 0 < n) (h : ∀ l ∈ lits, l.var < n) (h' : ∀ l ∈ lits', l.var < n)
    (hrows : ∀ row ∈ rows, ∀ l ∈ row, l.var < n) : StaysInScope n (continueCount lits lits' rows) := by
  induction lits' generalizing lits rows with
  | nil => exact staysInScope_pure
  | cons x xs ih =>
    obtain ⟨hx, hxs⟩ := List.forall_mem_cons.1 h'
    cases rows with
    | nil => exact staysInScope_forbidOverflow hx h
    | cons row rows =>
      obtain ⟨hrow, hrows⟩ := List.forall_mem_cons.1 hrows
      exact Scoped.seq (staysInScope_carryCount hx hn h hrow)
        (Scoped.seq (staysInScope_forbidOverflow hx h) (ih hrow hxs hrows))

theorem staysInScope_count (hn : 0 < n) (h : ∀ l ∈ lits, l.var < n) (hrows : ∀ row ∈ rows, ∀ l ∈ row, l.var < n) :
    StaysInScope n (count lits rows) := by
  unfold count
  split
  · obtain ⟨hx, hxs⟩ := List.forall_mem_cons.1 h
    obtain ⟨hrow, hrows⟩ := List.forall_mem_cons.1 hrows
    exact Scoped.seq (staysInScope_startCount hx hrow) (staysInScope_continueCount hn hrow hxs hrows)
  · exact staysInScope_pure

theorem staysInScope_atMost (hn : 0 < n) (h : ∀ l ∈ lits, l.var < n) (k : Nat) : StaysInScope n (atMost lits k) := by
  unfold atMost
  refine scoped_ite staysInScope_pure (scoped_ite (StaysInScope.forM fun l hl => ?_) ?_)
  · exact staysInScope_addClause (by simpa using h l hl)
  · refine (Scoped.mapM fun k _ => scoped_freshList k).bind fun m rows hle hrows => ?_
    exact staysInScope_count (by omega) (fun l hl => Nat.lt_of_lt_of_le (h l hl) hle)
      fun row hr l hl => hrows l ⟨row, hr, hl⟩

theorem staysInScope_atMostOne (hn : 0 < n) (h : ∀ l ∈ lits, l.var < n) : StaysInScope n (atMostOne lits) :=
  scoped_ite (staysInScope_forbidPairs h) (staysInScope_atMost hn h 1)

theorem staysInScope_exactlyOne (hn : 0 < n) (h : ∀ l ∈ lits, l.var < n) : StaysInScope n (exactlyOne lits) :=
  Scoped.seq (staysInScope_addClause h) (staysInScope_atMostOne hn h)

end Counting

end Builder

end MinimalistGrammar.Sat
