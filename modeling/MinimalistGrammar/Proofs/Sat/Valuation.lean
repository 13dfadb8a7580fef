import MinimalistGrammar.Proofs.Sat.Clause
import Mathlib.Data.List.Forall2

/-!
Values for the variables that a construction has handed out so far. A valuation knows some variables, and
grows with the formula; one that knows all variables is an assignment. What a literal denotes under a
valuation it denotes under every larger one.
-/

namespace MinimalistGrammar.Sat

structure Valuation where
  knows : Nat → Prop
  value : Assignment
  knows_zero : knows 0
  value_zero : value 0 = true

namespace Valuation

variable {v v' : Valuation} {l : Literal} {p q : Prop} {f : Formula}

/-- The larger valuation knows more variables and agrees on those known before. -/
instance : LE Valuation := ⟨fun v v' => ∀ n, v.knows n → v'.knows n ∧ v'.value n = v.value n⟩

theorem le_refl (v : Valuation) : v ≤ v := fun _ h => ⟨h, rfl⟩

theorem le_trans {v₁ v₂ v₃ : Valuation} (h : v₁ ≤ v₂) (k : v₂ ≤ v₃) : v₁ ≤ v₃ := fun n hn =>
  ⟨(k n (h n hn).1).1, ((k n (h n hn).1).2).trans (h n hn).2⟩

def IsTotal (v : Valuation) : Prop := ∀ n, v.knows n

def ofAssignment (a : Assignment) (h : a 0 = true) : Valuation := ⟨fun _ => True, a, trivial, h⟩

theorem isTotal_ofAssignment {a : Assignment} (h : a 0 = true) : (ofAssignment a h).IsTotal :=
  fun _ => trivial

/-- The literal is known, and is true exactly if `p` is. -/
def Denotes (v : Valuation) (l : Literal) (p : Prop) : Prop :=
  v.knows l.var ∧ (l.value v.value = true ↔ p)

theorem Denotes.mono (h : v.Denotes l p) (hv : v ≤ v') : v'.Denotes l p := by
  obtain ⟨hk, ht⟩ := h
  obtain ⟨hk', he⟩ := hv l.var hk
  exact ⟨hk', by rw [← ht, Literal.value, Literal.value, he]⟩

theorem Denotes.congr (h : v.Denotes l p) (e : p ↔ q) : v.Denotes l q := ⟨h.1, h.2.trans e⟩

theorem Denotes.unique (h : v.Denotes l p) (k : v.Denotes l q) : p ↔ q := h.2.symm.trans k.2

theorem Denotes.neg (h : v.Denotes l p) : v.Denotes (-l) (¬p) := by
  refine ⟨h.1, ?_⟩
  rw [← h.2, Literal.value_neg]
  simp

theorem denotes_self (h : v.knows l.var) : v.Denotes l (l.value v.value = true) := ⟨h, Iff.rfl⟩

theorem denotes_top : v.Denotes .top True := ⟨v.knows_zero, by simp [Literal.value_top v.value_zero]⟩

theorem denotes_bottom : v.Denotes .bottom False :=
  ⟨v.knows_zero, by simp [Literal.value_bottom v.value_zero]⟩

theorem Denotes.ne_bottom (h : v.Denotes l p) (hp : p) : l ≠ .bottom := by
  rintro rfl
  exact (h.unique denotes_bottom).1 hp

/-- The valuation settles the variables of the formula and no others, and makes all its clauses true. -/
structure Models (v : Valuation) (f : Formula) : Prop where
  knows_iff : ∀ n, v.knows n ↔ n < f.numVars
  closed : ∀ c ∈ f.clauses, ∀ l ∈ c, v.knows l.var
  holds : f.Holds v.value

theorem holds_clause_of_le {c : Clause} (hv : v ≤ v') (hc : ∀ l ∈ c, v.knows l.var)
    (h : c.Holds v.value) : c.Holds v'.value := by
  obtain ⟨l, hl, hlv⟩ := h
  exact ⟨l, hl, (((denotes_self (hc l hl)).mono hv).2).2 hlv⟩

/-- The same valuation with a value for the next variable. -/
noncomputable def extend (v : Valuation) (n : Nat) (hn : ¬v.knows n) (p : Prop) : Valuation := by
  classical
  exact {
    knows := fun m => m = n ∨ v.knows m
    value := fun m => if m = n then decide p else v.value m
    knows_zero := .inr v.knows_zero
    value_zero := by
      rw [if_neg]
      · exact v.value_zero
      · rintro rfl
        exact hn v.knows_zero }

theorem le_extend {n : Nat} (hn : ¬v.knows n) : v ≤ v.extend n hn p := by
  intro m hm
  refine ⟨.inr hm, if_neg ?_⟩
  rintro rfl
  exact hn hm

theorem denotes_extend {n : Nat} (hn : ¬v.knows n) : (v.extend n hn p).Denotes ⟨n, false⟩ p := by
  refine ⟨.inl rfl, ?_⟩
  simp [Literal.value, extend]

end Valuation

namespace Builder

variable {α β γ : Type}

def result (b : Builder α) (f : Formula) : α := (b.run f).1

def formula (b : Builder α) (f : Formula) : Formula := (b.run f).2

variable (b : Builder α) (k : α → Builder β) (f : Formula)

@[simp] theorem result_pure (x : α) : result (pure x) f = x := rfl

@[simp] theorem formula_pure (x : α) : formula (pure x) f = f := rfl

@[simp] theorem result_bind : result (b >>= k) f = result (k (result b f)) (formula b f) := rfl

@[simp] theorem formula_bind : formula (b >>= k) f = formula (k (result b f)) (formula b f) := rfl

@[simp] theorem result_fresh : result fresh f = ⟨f.numVars, false⟩ := rfl

@[simp] theorem formula_fresh : formula fresh f = { f with numVars := f.numVars + 1 } := rfl

@[simp] theorem formula_addClause (lits : List Literal) : formula (addClause lits) f = f.push lits := rfl

/-- The construction only adds variables and clauses. -/
def Grows (b : Builder α) : Prop :=
  ∀ f, f.numVars ≤ (formula b f).numVars ∧ ∀ c ∈ f.clauses, c ∈ (formula b f).clauses

/-- What the construction adds, it adds whatever clauses there are. -/
def Adds (b : Builder α) : Prop :=
  ∀ n, ∃ x m added, n ≤ m ∧ ∀ clauses, b.run ⟨n, clauses⟩ = (x, ⟨m, clauses ++ added⟩)

variable {b k}

theorem Grows.holds {f : Formula} {a : Assignment} (hb : Grows b) (h : (formula b f).Holds a) : f.Holds a :=
  fun c hc => h c ((hb f).2 c hc)

theorem Grows.bind (hb : Grows b) (hk : ∀ x, Grows (k x)) : Grows (b >>= k) := fun f =>
  ⟨Nat.le_trans (hb f).1 (hk _ _).1, fun c hc => (hk _ _).2 c ((hb f).2 c hc)⟩

theorem Adds.grows (hb : Adds b) : Grows b := by
  intro f
  obtain ⟨x, m, added, hle, h⟩ := hb f.numVars
  rw [formula, h f.clauses]
  exact ⟨hle, fun c hc => Array.mem_append_left _ hc⟩

theorem Adds.holds {f : Formula} {a : Assignment} (hb : Adds b) (h : (formula b f).Holds a) : f.Holds a :=
  hb.grows.holds h

theorem Adds.clauses_eq (hb : Adds b) (f : Formula) :
    (formula b f).clauses = f.clauses ++ (formula b ⟨f.numVars, #[]⟩).clauses := by
  obtain ⟨x, m, added, _, h⟩ := hb f.numVars
  rw [formula, formula, h f.clauses, h #[], Array.empty_append]

theorem adds_pure (x : α) : Adds (pure x : Builder α) := fun n =>
  ⟨x, n, #[], Nat.le_refl _, fun clauses => by rw [Array.append_empty]; rfl⟩

theorem adds_bind (hb : Adds b) (hk : ∀ x, Adds (k x)) : Adds (b >>= k) := by
  intro n
  obtain ⟨x, m, added, hle, h⟩ := hb n
  obtain ⟨y, m', added', hle', h'⟩ := hk x m
  refine ⟨y, m', added ++ added', Nat.le_trans hle hle', fun clauses => ?_⟩
  rw [← Array.append_assoc, ← h', StateT.run_bind, h]
  rfl

theorem adds_fresh : Adds fresh := fun n =>
  ⟨⟨n, false⟩, n + 1, #[], Nat.le_succ _, fun clauses => by rw [Array.append_empty]; rfl⟩

theorem adds_addClause (lits : List Literal) : Adds (addClause lits) := by
  have hrun : ∀ f, (addClause lits).run f = ((), f.push lits) := fun _ => rfl
  intro n
  cases h : Clause.normalize lits with
  | none =>
    refine ⟨(), n, #[], Nat.le_refl _, fun clauses => ?_⟩
    rw [hrun, Formula.push, h, Array.append_empty]
  | some c =>
    refine ⟨(), n, #[c], Nat.le_refl _, fun clauses => ?_⟩
    rw [hrun, Formula.push, h, Array.append_singleton]

theorem adds_mapM {g : α → Builder β} (hg : ∀ x, Adds (g x)) (l : List α) : Adds (l.mapM g) := by
  induction l with
  | nil => exact adds_pure _
  | cons x rest ih =>
    rw [List.mapM_cons]
    exact adds_bind (hg x) fun _ => adds_bind ih fun _ => adds_pure _

theorem adds_forM {g : α → Builder PUnit} (hg : ∀ x, Adds (g x)) (l : List α) : Adds (l.forM g) := by
  induction l with
  | nil => exact adds_pure _
  | cons x rest ih =>
    exact adds_bind (k := fun _ => rest.forM g) (hg x) fun _ => ih

theorem adds_option_forM {g : α → Builder PUnit} (hg : ∀ x, Adds (g x)) (o : Option α) :
    Adds (o.forM g) := by
  cases o with
  | none => exact adds_pure _
  | some x => exact hg x

theorem adds_ite {c : Prop} [Decidable c] {b' : Builder α} (hb : Adds b) (hb' : Adds b') :
    Adds (if c then b else b') := by
  split
  · exact hb
  · exact hb'

section Made

/-- The construction is put together from new variables and clauses. -/
inductive Made : {α : Type} → Builder α → Prop
  | pure {α : Type} (x : α) : Made (Pure.pure x)
  | fresh : Made fresh
  | addClause (lits : List Literal) : Made (addClause lits)
  | bind {α β : Type} {b : Builder α} {k : α → Builder β} (hb : Made b) (hk : ∀ x, Made (k x)) : Made (b >>= k)

theorem Made.adds (hb : Made b) : Adds b := by
  induction hb with
  | pure x => exact adds_pure x
  | fresh => exact adds_fresh
  | addClause lits => exact adds_addClause lits
  | bind _ _ ihb ihk => exact adds_bind ihb ihk

/-- What new variables and clauses keep, every construction from them keeps. -/
theorem Made.keeps {P : Formula → Prop} (hfresh : ∀ f, P f → P (formula Builder.fresh f))
    (hpush : ∀ f lits, P f → P (f.push lits)) (hb : Made b) : ∀ f, P f → P (formula b f) := by
  induction hb with
  | pure x => exact fun _ h => h
  | fresh => exact hfresh
  | addClause lits => exact fun f => hpush f lits
  | bind _ _ ihb ihk => exact fun f h => ihk _ _ (ihb f h)

theorem made_mapM {g : α → Builder β} (hg : ∀ x, Made (g x)) (l : List α) : Made (l.mapM g) := by
  induction l with
  | nil => exact .pure _
  | cons x rest ih =>
    rw [List.mapM_cons]
    exact (hg x).bind fun _ => ih.bind fun _ => .pure _

theorem made_forM {g : α → Builder PUnit} (hg : ∀ x, Made (g x)) (l : List α) : Made (l.forM g) := by
  induction l with
  | nil => exact .pure _
  | cons x rest ih => exact (hg x).bind (k := fun _ => rest.forM g) fun _ => ih

theorem made_option_forM {g : α → Builder PUnit} (hg : ∀ x, Made (g x)) (o : Option α) : Made (o.forM g) := by
  cases o with
  | none => exact .pure _
  | some x => exact hg x

theorem made_ite {c : Prop} [Decidable c] {b' : Builder α} (hb : Made b) (hb' : Made b') :
    Made (if c then b else b') := by
  split
  · exact hb
  · exact hb'

end Made

end Builder

end MinimalistGrammar.Sat
