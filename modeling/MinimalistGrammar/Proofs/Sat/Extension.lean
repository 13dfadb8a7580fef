import MinimalistGrammar.Proofs.Sat.Word

/-!
Values for the variables of a formula, completed by values for those that a construction adds. They can be completed
exactly if what the construction says holds of them. The clauses are read from memory, where all variables must have room.
-/

namespace MinimalistGrammar.Sat

namespace Valuation

variable {v : Valuation} {f : Formula} {a : Assignment}

/-- The valuation settles the variables of the formula and no others, whether it makes its clauses true or not. -/
def Settles (v : Valuation) (f : Formula) : Prop := ∀ n, v.knows n ↔ n < f.numVars

theorem Settles.models (h : v.Settles f) : v.Models ⟨f.numVars, #[]⟩ := ⟨h, by simp, by simp [Formula.Holds]⟩

theorem exists_settles (h : ∀ n, v.knows n → n < f.numVars) : ∃ v', v'.Settles f ∧ v ≤ v' :=
  ⟨⟨fun n => n < f.numVars, v.value, h 0 v.knows_zero, v.value_zero⟩, fun _ => Iff.rfl, fun n hn => ⟨h n hn, rfl⟩⟩

def below (f : Formula) (a : Assignment) (hf : f.IsProper) (ha : f.Holds a) : Valuation :=
  ⟨(· < f.numVars), a, hf.pos, hf.value_zero ha⟩

theorem models_below (hf : f.IsProper) (ha : f.Holds a) : (below f a hf ha).Models f :=
  ⟨fun _ => Iff.rfl, fun c hc => hf.closed c (Array.mem_toList_iff.2 hc), ha⟩

end Valuation

namespace Builder

open MinimalistGrammar.Sat.Valuation

variable {α : Type} {b : Builder α} {f : Formula} {a : Assignment} {lits : List Literal} {C : Prop}
  {Q : Valuation → α → Prop}

theorem exists_extends_iff (hf : f.IsProper) (ha : f.Holds a) (hb : Grows b)
    (h : ∀ v, below f a hf ha ≤ v → Spec v b C Q) :
    (∃ a', (∀ n < f.numVars, a' n = a n) ∧ (formula b f).Holds a') ↔ C := by
  constructor
  · rintro ⟨a', heq, ha'⟩
    have h0 : a' 0 = true := hf.value_zero (hb.holds ha')
    obtain ⟨_, hc, _⟩ := (h (ofAssignment a' h0) fun n hn => ⟨trivial, heq n hn⟩).1 f (isTotal_ofAssignment h0) ha'
    exact hc
  · intro hc
    obtain ⟨v, hle, hm, _⟩ := (h _ (le_refl _)).2 f () (models_below hf ha) hc
    exact ⟨v.value, fun n hn => (hle n hn).2, hm.holds⟩

/-- The clauses that a construction adds to a formula. -/
def clausesOf (b : Builder α) (f : Formula) : List Clause := (formula b f).clauses.toList.drop f.clauses.size

/-- Whatever there was before, these are the clauses that are made when there is nothing but the variables. -/
theorem forall_clausesOf_iff (hb : Adds b) :
    (∀ c ∈ clausesOf b f, c.Holds a) ↔ (formula b ⟨f.numVars, #[]⟩).Holds a := by
  rw [clausesOf, hb.clauses_eq f, Array.toList_append, List.drop_left' (Array.length_toList)]
  simp only [Array.mem_toList_iff, Formula.Holds]

/-- The further variables can be given values that meet the clauses exactly if what these say holds. -/
theorem exists_clausesOf_iff {v : Valuation} (hb : Adds b) (hv : v.Settles f) (h : ∀ v', v ≤ v' → Spec v' b C Q) :
    (∃ a, (∀ n < f.numVars, a n = v.value n) ∧ ∀ c ∈ clausesOf b f, c.Holds a) ↔ C := by
  simp only [forall_clausesOf_iff hb]
  constructor
  · rintro ⟨a, hagree, ha⟩
    have h0 : a 0 = true := (hagree 0 ((hv 0).1 v.knows_zero)).trans v.value_zero
    have hle : v ≤ ofAssignment a h0 := fun n hn => ⟨trivial, hagree n ((hv n).1 hn)⟩
    obtain ⟨_, hc, _⟩ := (h _ hle).1 _ (isTotal_ofAssignment h0) ha
    exact hc
  · intro hc
    obtain ⟨v', hle, hm, _⟩ := (h v (le_refl v)).2 _ () hv.models hc
    exact ⟨v'.value, fun n hn => (hle n ((hv n).2 hn)).2, hm.holds⟩

theorem trueCount_values (a : Assignment) (lits : List Literal) :
    trueCount (lits.map fun l => l.value a = true) = countTrue a lits := by
  rw [trueCount_map, countTrue]
  exact List.countP_congr fun l _ => by simp

/-- The registers of a counter can be given values exactly if no more than the bound of the positions are true, as long as there
is room for them. -/
theorem exists_extends_atMost_iff (hf : f.IsProper) (hl : ∀ l ∈ lits, l.var < f.numVars) (ha : f.stored.Holds a) (k : Nat)
    (hc : (formula (atMost lits k) f).numVars ≤ Literal.capacity) :
    (∃ a', (∀ n < f.numVars, a' n = a n) ∧ (formula (atMost lits k) f).stored.Holds a') ↔ countTrue a lits ≤ k := by
  obtain ⟨hf', hle, _⟩ := staysInScope_atMost hf.pos hl k f hf (Nat.le_refl _)
  have ha : f.Holds a := (hf.holds_stored (Nat.le_trans hle hc)).1 ha
  simp only [hf'.holds_stored hc]
  rw [← trueCount_values]
  refine exists_extends_iff hf ha (adds_atMost lits k).grows fun v hle => asserts_atMost ?_ k
  have hbelow : List.Forall₂ (below f a hf ha).Denotes lits (lits.map fun l => l.value a = true) := by
    rw [List.forall₂_map_right_iff, List.forall₂_same]
    exact fun l hm => denotes_self (hl l hm)
  exact forall₂_denotes_mono hbelow hle

/-- Of the positions of a variable, again of it, of its negation and of the constant three are true, or two. -/
theorem exists_extends_atMost_repeated :
    let f : Formula := ⟨2, #[[.top]]⟩
    let lits : List Literal := [⟨1, false⟩, ⟨1, false⟩, ⟨1, true⟩, .top]
    f.IsProper ∧ (∀ l ∈ lits, l.var < f.numVars) ∧ (f.stored.Holds fun _ => true) ∧ (f.stored.Holds (· = 0)) ∧
      (formula (atMost lits 2) f).numVars ≤ Literal.capacity ∧
      (¬∃ a', (∀ n < f.numVars, a' n = true) ∧ (formula (atMost lits 2) f).stored.Holds a') ∧
        ∃ a', (∀ n < f.numVars, a' n = decide (n = 0)) ∧ (formula (atMost lits 2) f).stored.Holds a' := by
  intro f lits
  have hf : f.IsProper := Formula.isProper_empty.fresh
  have hl : ∀ l ∈ lits, l.var < f.numVars := by decide
  have ha : f.stored.Holds fun _ => true := by decide
  have ha' : f.stored.Holds (· = 0) := by decide
  have hc : (formula (atMost lits 2) f).numVars ≤ Literal.capacity := by decide
  refine ⟨hf, hl, ha, ha', hc, ?_, ?_⟩
  · rw [exists_extends_atMost_iff hf hl ha 2 hc]
    decide
  · rw [exists_extends_atMost_iff hf hl ha' 2 hc]
    decide

end Builder

end MinimalistGrammar.Sat
