import MinimalistGrammar.Proofs.Sat.Extension

/-!
Gates define their output: values for the variables of a formula can be completed in exactly one way, and then the
literal of the gate has the value of what it stands for. The two encodings of "at most one" admit the same completions
of a list, however long it is, and positions that repeat or contradict each other are counted like all others.
-/

namespace MinimalistGrammar.Sat

namespace Builder

open MinimalistGrammar.Sat.Valuation

variable {α β : Type} {b : Builder α} {k : α → Builder β} {gate : Builder Literal} {f : Formula} {a a' : Assignment}
  {lits : List Literal} {value : Bool} {C p : Prop}

/-- There is room for all variables that the construction comes to. -/
def Fits (b : Builder α) (f : Formula) : Prop := (formula b f).numVars ≤ Literal.capacity

instance (b : Builder α) (f : Formula) : Decidable (Fits b f) :=
  inferInstanceAs (Decidable ((formula b f).numVars ≤ Literal.capacity))

/-- Values for the variables of the formula, and for those that the construction adds, that make the clauses of both
true. -/
structure Completes (b : Builder α) (f : Formula) (a a' : Assignment) : Prop where
  agrees : ∀ n < f.numVars, a' n = a n
  holds : (formula b f).stored.Holds a'

/-- The values can be completed in exactly one way, and then the literal of the gate has the given value. -/
structure Defines (gate : Builder Literal) (f : Formula) (a : Assignment) (value : Bool) : Prop where
  numVars_le : (formula gate f).numVars ≤ f.numVars + 1
  exists_completion : ∃ a', Completes gate f a a'
  unique : ∀ a' a'', Completes gate f a a' → Completes gate f a a'' →
    ∀ n < (formula gate f).numVars, a' n = a'' n
  value_eq : ∀ a', Completes gate f a a' → (Literal.ofWord (result gate f).word).value a' = value

section Variables

def AddsNoVariable (b : Builder α) : Prop := ∀ f, (formula b f).numVars = f.numVars

/-- The construction adds no variable but that of its literal. -/
def AddsOnlyOutput (gate : Builder Literal) : Prop := ∀ f, (formula gate f).numVars = f.numVars ∨
  (formula gate f).numVars = f.numVars + 1 ∧ result gate f = ⟨f.numVars, false⟩

theorem addsNoVariable_addClause (lits : List Literal) : AddsNoVariable (addClause lits) := fun _ =>
  Formula.numVars_push

theorem AddsNoVariable.bind (hb : AddsNoVariable b) (hk : ∀ x, AddsNoVariable (k x)) : AddsNoVariable (b >>= k) :=
  fun f => (hk _ _).trans (hb f)

theorem addsNoVariable_forM {g : α → Builder PUnit} (hg : ∀ x, AddsNoVariable (g x)) (l : List α) :
    AddsNoVariable (l.forM g) := by
  induction l with
  | nil => exact fun _ => rfl
  | cons x rest ih => exact (hg x).bind (k := fun _ => rest.forM g) fun _ => ih

theorem addsNoVariable_forbidPairs (lits : List Literal) : AddsNoVariable (forbidPairs lits) := by
  induction lits with
  | nil => exact fun _ => rfl
  | cons l rest ih =>
    exact (addsNoVariable_forM (fun m => addsNoVariable_addClause _) rest).bind (k := fun _ => forbidPairs rest) fun _ => ih

theorem addsOnlyOutput_pure (l : Literal) : AddsOnlyOutput (pure l) := fun _ => .inl rfl

theorem addsOnlyOutput_fresh {d : Literal → Builder Unit} (hd : ∀ l, AddsNoVariable (d l)) :
    AddsOnlyOutput (fresh >>= fun l => d l >>= fun _ => pure l) := fun _ => .inr ⟨hd _ _, rfl⟩

theorem addsOnlyOutput_and (lits : List Literal) : AddsOnlyOutput (and lits) := by
  unfold and
  split
  · exact addsOnlyOutput_pure _
  · exact addsOnlyOutput_pure _
  · refine addsOnlyOutput_fresh (d := fun l => (lits.forM fun m => implies [l] m) >>= fun _ => implies lits l) fun l => ?_
    exact (addsNoVariable_forM (fun _ => addsNoVariable_addClause _) _).bind fun _ => addsNoVariable_addClause _

theorem addsOnlyOutput_or (lits : List Literal) : AddsOnlyOutput (or lits) := by
  unfold or
  split
  · exact addsOnlyOutput_pure _
  · exact addsOnlyOutput_pure _
  · refine addsOnlyOutput_fresh (d := fun l => defineOr l lits) fun l => ?_
    exact (addsNoVariable_forM (fun _ => addsNoVariable_addClause _) _).bind fun _ => addsNoVariable_addClause _

end Variables

section Room

variable {M : α → Literal → Prop} (hf : f.IsProper) (hs : Scoped f.numVars b M) (hc : Fits b f)

include hf hs hc

theorem holds_of_fits (ha : f.stored.Holds a) : f.Holds a := by
  obtain ⟨_, hle, _⟩ := hs f hf (Nat.le_refl _)
  exact (hf.holds_stored (Nat.le_trans hle hc)).1 ha

theorem completes_iff : Completes b f a a' ↔ (∀ n < f.numVars, a' n = a n) ∧ (formula b f).Holds a' := by
  obtain ⟨hf', _⟩ := hs f hf (Nat.le_refl _)
  rw [← hf'.holds_stored hc]
  exact ⟨fun h => ⟨h.agrees, h.holds⟩, fun h => ⟨h.1, h.2⟩⟩

theorem exists_completes_iff {Q : Valuation → α → Prop} (ha : f.Holds a) (hb : Grows b)
    (h : ∀ v, below f a hf ha ≤ v → Spec v b C Q) : (∃ a', Completes b f a a') ↔ C := by
  rw [← exists_extends_iff hf ha hb h]
  exact exists_congr fun a' => completes_iff hf hs hc

end Room

/-- The literals of the formula denote their values, and go on to do so. -/
theorem forall₂_denotes_below {v : Valuation} (hf : f.IsProper) (hl : ∀ l ∈ lits, l.var < f.numVars) (ha : f.Holds a)
    (hle : below f a hf ha ≤ v) : List.Forall₂ v.Denotes lits (lits.map fun l => l.value a = true) := by
  refine forall₂_denotes_mono ?_ hle
  rw [List.forall₂_map_right_iff, List.forall₂_same]
  exact fun l hm => denotes_self (hl l hm)

/-- A gate whose literal denotes something, whatever the values, defines it. -/
theorem defines_of_spec (hf : f.IsProper) (hs : Scoped f.numVars gate Eq) (hc : Fits gate f) (ha : f.Holds a)
    (hb : Grows gate) (ho : AddsOnlyOutput gate)
    (h : ∀ v, below f a hf ha ≤ v → Spec v gate True fun v' l => v'.Denotes l p) (hp : value = true ↔ p) :
    Defines gate f a value := by
  have hword : Literal.ofWord (result gate f).word = result gate f := by
    obtain ⟨_, _, hr⟩ := hs f hf (Nat.le_refl _)
    exact Literal.ofWord_word (Nat.lt_of_lt_of_le (hr _ rfl) hc)
  have hvalue : ∀ a', Completes gate f a a' → (result gate f).value a' = value := by
    intro a' hcomp
    obtain ⟨hagree, ha'⟩ := (completes_iff hf hs hc).1 hcomp
    have h0 : a' 0 = true := hf.value_zero (hb.holds ha')
    have hle : below f a hf ha ≤ ofAssignment a' h0 := fun n hn => ⟨trivial, hagree n hn⟩
    obtain ⟨_, _, hd⟩ := (h _ hle).1 f (isTotal_ofAssignment h0) ha'
    rw [Bool.eq_iff_iff, hp]
    exact hd.2
  refine ⟨?_, (exists_completes_iff hf hs hc ha hb h).2 trivial, fun a' a'' hcomp hcomp' n hn => ?_,
    fun a' hcomp => by rw [hword, hvalue a' hcomp]⟩
  · rcases ho f with he | ⟨he, _⟩ <;> omega
  · rcases Nat.lt_or_ge n f.numVars with hlt | hge
    · rw [hcomp.agrees n hlt, hcomp'.agrees n hlt]
    · -- the only further variable is that of the literal
      rcases ho f with he | ⟨he, hr⟩
      · omega
      · obtain rfl : n = f.numVars := by omega
        have heq := (hvalue a' hcomp).trans (hvalue a'' hcomp').symm
        simpa [hr, Literal.value] using heq

theorem all_eq_true_iff : lits.all (·.value a) = true ↔ AllOf (lits.map fun l => l.value a = true) := by
  rw [allOf_map, List.all_eq_true]

theorem any_eq_true_iff : lits.any (·.value a) = true ↔ AnyOf (lits.map fun l => l.value a = true) := by
  rw [anyOf_map, List.any_eq_true]

/-- Both gates define their output. One position at most of a list is true, or exactly one, if and only if the values
can be completed for the constraint that says so, and pairs and counter admit the same values. -/
theorem defines_gates_and_completes_iff (hf : f.IsProper) (hl : ∀ l ∈ lits, l.var < f.numVars) (ha : f.stored.Holds a) :
    (Fits (and lits) f → Defines (and lits) f a (lits.all (·.value a))) ∧
    (Fits (or lits) f → Defines (or lits) f a (lits.any (·.value a))) ∧
    (Fits (atMostOne lits) f → ((∃ a', Completes (atMostOne lits) f a a') ↔ countTrue a lits ≤ 1)) ∧
    (Fits (exactlyOne lits) f → ((∃ a', Completes (exactlyOne lits) f a a') ↔ countTrue a lits = 1)) ∧
    (Fits (atMost lits 1) f →
      ((∃ a', Completes (forbidPairs lits) f a a') ↔ ∃ a', Completes (atMost lits 1) f a a')) := by
  have hd := fun v (ha : f.Holds a) => forall₂_denotes_below (v := v) hf hl ha
  refine ⟨fun hc => ?_, fun hc => ?_, fun hc => ?_, fun hc => ?_, fun hc => ?_⟩
  · have hs := scoped_and hf.pos hl
    exact defines_of_spec hf hs hc (holds_of_fits hf hs hc ha) (adds_and lits).grows (addsOnlyOutput_and lits)
      (fun v hle => spec_and (hd v _ hle)) all_eq_true_iff
  · have hs := scoped_or hf.pos hl
    exact defines_of_spec hf hs hc (holds_of_fits hf hs hc ha) (adds_or lits).grows (addsOnlyOutput_or lits)
      (fun v hle => spec_or (hd v _ hle)) any_eq_true_iff
  · have hs := staysInScope_atMostOne hf.pos hl
    rw [← trueCount_values]
    exact exists_completes_iff hf hs hc (holds_of_fits hf hs hc ha) (adds_atMostOne lits).grows fun v hle =>
      asserts_atMostOne (hd v _ hle)
  · have hs := staysInScope_exactlyOne hf.pos hl
    rw [← trueCount_values]
    exact exists_completes_iff hf hs hc (holds_of_fits hf hs hc ha) (adds_exactlyOne lits).grows fun v hle =>
      asserts_exactlyOne (hd v _ hle)
  · have hs := staysInScope_atMost hf.pos hl 1
    have ha := holds_of_fits hf hs hc ha
    have hpairs : Fits (forbidPairs lits) f := by
      obtain ⟨_, hle, _⟩ := hs f hf (Nat.le_refl _)
      rw [Fits, addsNoVariable_forbidPairs]
      exact Nat.le_trans hle hc
    rw [exists_completes_iff hf (staysInScope_forbidPairs hl) hpairs ha (adds_forbidPairs lits).grows fun v hle =>
        asserts_forbidPairs (hd v _ hle),
      exists_completes_iff hf hs hc ha (adds_atMost lits 1).grows fun v hle => asserts_atMost (hd v _ hle) 1]

/-- Seven positions, of a variable, its negation, the constants and a second variable, with one true or with three. -/
theorem defines_gates_sevenPositions :
    let f : Formula := ⟨3, #[[.top]]⟩
    let lits : List Literal := [⟨1, false⟩, ⟨1, true⟩, .bottom, ⟨2, false⟩, ⟨2, false⟩, .bottom, .bottom]
    f.IsProper ∧ (∀ l ∈ lits, l.var < f.numVars) ∧ (f.stored.Holds (· = 0)) ∧ (f.stored.Holds (· ≠ 1)) ∧
      Defines (and lits) f (· = 0) false ∧ Defines (or lits) f (· = 0) true ∧
        (∃ a', Completes (exactlyOne lits) f (· = 0) a') ∧ (¬∃ a', Completes (atMostOne lits) f (· ≠ 1) a') ∧
          ¬∃ a', Completes (forbidPairs lits) f (· ≠ 1) a' := by
  intro f lits
  have hf : f.IsProper := Formula.isProper_empty.fresh.fresh
  have hl : ∀ l ∈ lits, l.var < f.numVars := by decide
  have ha : f.stored.Holds (· = 0) := by decide
  have ha' : f.stored.Holds (· ≠ 1) := by decide
  obtain ⟨hand, hor, _, hone, _⟩ := defines_gates_and_completes_iff hf hl ha
  obtain ⟨_, _, hmost, _, hpairs⟩ := defines_gates_and_completes_iff hf hl ha'
  have hmost : ¬∃ a', Completes (atMostOne lits) f (· ≠ 1) a' := by
    rw [hmost (by decide)]
    decide
  refine ⟨hf, hl, ha, ha', hand (by decide), hor (by decide), (hone (by decide)).2 (by decide), hmost, ?_⟩
  -- a list of seven positions is counted by registers
  exact (hpairs (by decide)).not.2 hmost

end Builder

end MinimalistGrammar.Sat
