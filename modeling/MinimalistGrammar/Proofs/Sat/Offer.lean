import MinimalistGrammar.Proofs.Sat.Valuation

/-!
What a construction says, in both directions at once. A construction offers the choices that satisfy `P` when
each assignment that makes its clauses true stands for one of them, and each of them can be taken by giving
values to the new variables. What its result denotes under a choice is `Q`.
-/

namespace MinimalistGrammar.Sat

namespace Builder

open MinimalistGrammar.Sat.Valuation

variable {α β τ υ : Type} {v : Valuation}

def Offers (v : Valuation) (b : Builder α) (P : τ → Prop) (Q : τ → Valuation → α → Prop) : Prop :=
  (∀ f, v.IsTotal → (formula b f).Holds v.value → ∃ t, P t ∧ Q t v (result b f)) ∧
    ∀ f t, v.Models f → P t → ∃ v', v ≤ v' ∧ v'.Models (formula b f) ∧ Q t v' (result b f)

/-- There is nothing to choose, but the clauses can be met only if `C` holds. -/
def Spec (v : Valuation) (b : Builder α) (C : Prop) (Q : Valuation → α → Prop) : Prop :=
  Offers v b (fun _ : Unit => C) fun _ => Q

def Asserts (v : Valuation) (b : Builder Unit) (C : Prop) : Prop := Spec v b C fun _ _ => True

section Offers

variable {b : Builder α} {k : α → Builder β} {P : τ → Prop} {Q : τ → Valuation → α → Prop}

theorem Offers.imp {R : υ → Prop} {S : υ → Valuation → α → Prop} (h : Offers v b P Q)
    (sound : ∀ t x, P t → Q t v x → ∃ t', R t' ∧ S t' v x)
    (complete : ∀ t', R t' → ∃ t, P t ∧ ∀ v' x, v ≤ v' → Q t v' x → S t' v' x) : Offers v b R S := by
  constructor
  · intro f ht hf
    obtain ⟨t, hp, hq⟩ := h.1 f ht hf
    exact sound t _ hp hq
  · intro f t' hm hp'
    obtain ⟨t, hp, hq⟩ := complete t' hp'
    obtain ⟨v', hle, hm', hq'⟩ := h.2 f t hm hp
    exact ⟨v', hle, hm', hq v' _ hle hq'⟩

theorem Offers.bind {P' : τ → υ → Prop} {Q' : τ → υ → Valuation → β → Prop} (hb : Offers v b P Q)
    (hg : ∀ x, Adds (k x))
    (hk : ∀ t v' x, v ≤ v' → P t → Q t v' x → Offers v' (k x) (P' t) (Q' t)) :
    Offers v (b >>= k) (fun t : τ × υ => P t.1 ∧ P' t.1 t.2) fun t => Q' t.1 t.2 := by
  constructor
  · intro f ht hf
    -- the clauses of the first part are among those of the whole
    obtain ⟨t, hp, hq⟩ := hb.1 f ht ((hg _).holds hf)
    obtain ⟨u, hp', hq'⟩ := (hk t v _ (le_refl v) hp hq).1 _ ht hf
    exact ⟨(t, u), ⟨hp, hp'⟩, hq'⟩
  · rintro f ⟨t, u⟩ hm ⟨hp, hp'⟩
    obtain ⟨v₁, hle₁, hm₁, hq⟩ := hb.2 f t hm hp
    obtain ⟨v₂, hle₂, hm₂, hq'⟩ := (hk t v₁ _ hle₁ hp hq).2 _ u hm₁ hp'
    exact ⟨v₂, le_trans hle₁ hle₂, hm₂, hq'⟩

/-- Follows a construction that leaves a choice by one that does not. -/
theorem Offers.bind_spec {C : τ → Prop} {R : τ → Valuation → β → Prop} (hb : Offers v b P Q)
    (hg : ∀ x, Adds (k x))
    (hk : ∀ t v' x, v ≤ v' → P t → Q t v' x → Spec v' (k x) (C t) (R t)) :
    Offers v (b >>= k) (fun t => P t ∧ C t) R :=
  (Offers.bind hb hg hk).imp (fun ⟨t, _⟩ _ hp hq => ⟨t, hp, hq⟩)
    fun t hp => ⟨(t, ()), hp, fun _ _ _ hq => hq⟩

theorem Offers.bind_free {R : τ → Valuation → β → Prop} (hb : Offers v b P Q) (hg : ∀ x, Adds (k x))
    (hk : ∀ t v' x, v ≤ v' → P t → Q t v' x → Spec v' (k x) True (R t)) : Offers v (b >>= k) P R :=
  (Offers.bind hb hg hk).imp (fun ⟨t, _⟩ _ hp hq => ⟨t, hp.1, hq⟩)
    fun t hp => ⟨(t, ()), ⟨hp, trivial⟩, fun _ _ _ hq => hq⟩

theorem Offers.bind_pure {R : τ → Valuation → β → Prop} {g : α → β} (hb : Offers v b P Q)
    (h : ∀ t v' x, v ≤ v' → P t → Q t v' x → R t v' (g x)) :
    Offers v (b >>= fun x => pure (g x)) P R := by
  constructor
  · intro f ht hf
    obtain ⟨t, hp, hq⟩ := hb.1 f ht hf
    exact ⟨t, hp, h t v _ (le_refl v) hp hq⟩
  · intro f t hm hp
    obtain ⟨v', hle, hm', hq⟩ := hb.2 f t hm hp
    exact ⟨v', hle, hm', h t v' _ hle hp hq⟩

theorem Offers.exists (h : Offers v b P Q) : Spec v b (∃ t, P t) fun v' x => ∃ t, P t ∧ Q t v' x :=
  h.imp (fun t _ hp hq => ⟨(), ⟨t, hp⟩, t, hp, hq⟩)
    fun _ ⟨t, hp⟩ => ⟨t, hp, fun _ _ _ hq => ⟨t, hp, hq⟩⟩

theorem offers_pure {x : α} (h : ∀ t, P t → Q t v x) (he : ∃ t, P t) : Offers v (pure x) P Q :=
  ⟨fun _ _ _ => he.imp fun t hp => ⟨hp, h t hp⟩, fun _ t hm hp => ⟨v, le_refl v, hm, h t hp⟩⟩

end Offers

section Spec

variable {b : Builder α} {k : α → Builder β} {C D : Prop} {Q : Valuation → α → Prop}

theorem Spec.imp {Q' : Valuation → α → Prop} (h : Spec v b C Q) (hc : C ↔ D)
    (hq : ∀ v' x, v ≤ v' → C → Q v' x → Q' v' x) : Spec v b D Q' :=
  Offers.imp h (fun _ x c q => ⟨(), hc.1 c, hq v x (le_refl v) c q⟩)
    fun _ c => ⟨(), hc.2 c, fun v' x hle q => hq v' x hle (hc.2 c) q⟩

theorem Spec.congr (h : Spec v b C Q) (hc : C ↔ D) : Spec v b D Q := h.imp hc fun _ _ _ _ q => q

theorem Spec.post {Q' : Valuation → α → Prop} (h : Spec v b C Q)
    (hq : ∀ v' x, v ≤ v' → C → Q v' x → Q' v' x) : Spec v b C Q' := h.imp Iff.rfl hq

theorem Spec.asserts {b : Builder Unit} {Q : Valuation → Unit → Prop} (h : Spec v b C Q) : Asserts v b C :=
  h.post fun _ _ _ _ _ => trivial

theorem Asserts.congr {b : Builder Unit} (h : Asserts v b C) (hc : C ↔ D) : Asserts v b D :=
  Spec.congr h hc

theorem Spec.bind {R : Valuation → β → Prop} (hb : Spec v b C Q) (hg : ∀ x, Adds (k x))
    (hk : ∀ v' x, v ≤ v' → C → Q v' x → Spec v' (k x) D R) : Spec v (b >>= k) (C ∧ D) R :=
  (Offers.bind hb hg fun _ v' x hle c q => hk v' x hle c q).imp
    (fun _ _ hp hq => ⟨(), hp, hq⟩) fun _ hp => ⟨((), ()), hp, fun _ _ _ hq => hq⟩

theorem Spec.bind_free {R : Valuation → β → Prop} (hb : Spec v b C Q) (hg : ∀ x, Adds (k x))
    (hk : ∀ v' x, v ≤ v' → C → Q v' x → Spec v' (k x) True R) : Spec v (b >>= k) C R :=
  Offers.bind_free hb hg fun _ => hk

theorem spec_pure {x : α} (h : Q v x) : Spec v (pure x) True Q := offers_pure (fun _ _ => h) ⟨(), trivial⟩

theorem asserts_pure : Asserts v (pure ()) True := spec_pure trivial

theorem Asserts.bind {b : Builder Unit} {k : Unit → Builder β} {R : Valuation → β → Prop}
    (hb : Asserts v b C) (hg : ∀ x, Adds (k x)) (hk : ∀ v' x, v ≤ v' → C → Spec v' (k x) D R) :
    Spec v (b >>= k) (C ∧ D) R :=
  Spec.bind hb hg fun v' x hle c _ => hk v' x hle c

theorem Spec.bind_pure {R : Valuation → β → Prop} {g : α → β} (hb : Spec v b C Q)
    (h : ∀ v' x, v ≤ v' → C → Q v' x → R v' (g x)) : Spec v (b >>= fun x => pure (g x)) C R :=
  Offers.bind_pure hb fun _ => h

end Spec

section Lists

/-- One construction for each member of a list that is related to the list of interest. -/
theorem Spec.mapM_of_forall₂ {ι : Type} {xs : List ι} {l : List α} {r : ι → α → Prop} {g : α → Builder β}
    {C : ι → Prop} {Q : ι → Valuation → β → Prop} (hl : List.Forall₂ r xs l)
    (mono : ∀ x v v' y, v ≤ v' → Q x v y → Q x v' y) (hg : ∀ x, Adds (g x))
    (h : ∀ x ∈ xs, ∀ z, r x z → ∀ v', v ≤ v' → Spec v' (g z) (C x) (Q x)) :
    Spec v (l.mapM g) (∀ x ∈ xs, C x) fun v' ys => List.Forall₂ (fun x y => Q x v' y) xs ys := by
  induction hl generalizing v with
  | nil => exact (spec_pure .nil).congr (by simp)
  | @cons x z xs rest hz _ ih =>
    rw [List.mapM_cons]
    have tail : ∀ v' y, v ≤ v' → C x → Q x v' y →
        Spec v' (rest.mapM g >>= fun ys => pure (y :: ys)) (∀ x ∈ xs, C x)
          fun v'' ys => List.Forall₂ (fun x y => Q x v'' y) (x :: xs) ys := by
      intro v' y hle _ hq
      refine (ih fun x hx z hz v'' hle' => h x (.tail _ hx) z hz v'' (le_trans hle hle')).bind_pure ?_
      intro v'' ys hle' _ hqs
      exact .cons (mono x v' v'' y hle' hq) hqs
    refine ((h x (.head _) z hz v (le_refl v)).bind ?_ tail).congr (by simp)
    exact fun _ => adds_bind (adds_mapM hg rest) fun _ => adds_pure _

theorem Spec.mapM {l : List α} {g : α → Builder β} {C : α → Prop} {Q : α → Valuation → β → Prop}
    (mono : ∀ x v v' y, v ≤ v' → Q x v y → Q x v' y) (hg : ∀ x, Adds (g x))
    (h : ∀ x ∈ l, ∀ v', v ≤ v' → Spec v' (g x) (C x) (Q x)) :
    Spec v (l.mapM g) (∀ x ∈ l, C x) fun v' ys => List.Forall₂ (fun x y => Q x v' y) l ys :=
  Spec.mapM_of_forall₂ (r := Eq) (List.forall₂_refl l) mono hg fun x hx _ hz v' hle => hz ▸ h x hx v' hle

theorem Asserts.forM {l : List α} {g : α → Builder Unit} {C : α → Prop} (hg : ∀ x, Adds (g x))
    (h : ∀ x ∈ l, ∀ v', v ≤ v' → Asserts v' (g x) (C x)) : Asserts v (l.forM g) (∀ x ∈ l, C x) := by
  induction l generalizing v with
  | nil => exact asserts_pure.congr (by simp)
  | cons x rest ih =>
    have tail : ∀ v' (_ : Unit), v ≤ v' → C x → Asserts v' (rest.forM g) (∀ z ∈ rest, C z) :=
      fun _ _ hle _ => ih fun z hz v'' hle' => h z (.tail _ hz) v'' (le_trans hle hle')
    exact (Asserts.bind (k := fun _ => rest.forM g) (h x (.head _) v (le_refl v))
      (fun _ => adds_forM hg rest) tail).congr (by simp)

theorem Asserts.option_forM {o : Option α} {g : α → Builder Unit} {C : α → Prop}
    (h : ∀ x ∈ o, Asserts v (g x) (C x)) : Asserts v (o.forM g) (∀ x ∈ o, C x) := by
  cases o with
  | none => exact asserts_pure.congr (by simp)
  | some x => exact (h x rfl).congr (by simp)

/-- Each member of the list takes its own choice. -/
theorem Offers.mapM {l : List α} {g : α → Builder β} {P : α → τ → Prop}
    {Q : α → τ → Valuation → β → Prop} [Inhabited τ] (hl : l.Nodup)
    (mono : ∀ x t v v' y, v ≤ v' → Q x t v y → Q x t v' y) (hg : ∀ x, Adds (g x))
    (h : ∀ x ∈ l, ∀ v', v ≤ v' → Offers v' (g x) (P x) (Q x)) :
    Offers v (l.mapM g) (fun t : α → τ => ∀ x ∈ l, P x (t x))
      fun t v' ys => List.Forall₂ (fun x y => Q x (t x) v' y) l ys := by
  classical
  induction l generalizing v with
  | nil => exact offers_pure (fun _ _ => .nil) ⟨fun _ => default, by simp⟩
  | cons x rest ih =>
    obtain ⟨hx, hrest⟩ := List.nodup_cons.1 hl
    rw [List.mapM_cons]
    have tail : ∀ t v' y, v ≤ v' → P x t → Q x t v' y →
        Offers v' (rest.mapM g >>= fun ys => pure (y :: ys)) (fun u : α → τ => ∀ z ∈ rest, P z (u z))
          fun u v'' ys => ∃ y zs, ys = y :: zs ∧ Q x t v'' y ∧
            List.Forall₂ (fun x y => Q x (u x) v'' y) rest zs := by
      intro t v' y hle _ hq
      refine (ih hrest fun z hz v'' hle' => h z (.tail _ hz) v'' (le_trans hle hle')).bind_pure ?_
      intro u v'' ys hle' _ hqs
      exact ⟨y, ys, rfl, mono x t v' v'' y hle' hq, hqs⟩
    have hadds : ∀ y, Adds (rest.mapM g >>= fun ys => pure (y :: ys)) :=
      fun _ => adds_bind (adds_mapM hg rest) fun _ => adds_pure _
    refine ((h x (.head _) v (le_refl v)).bind hadds tail).imp ?_ ?_
    · rintro ⟨t, u⟩ _ ⟨hp, hps⟩ ⟨y, ys, rfl, hq, hqs⟩
      -- `x` does not come again, so its choice can be put in without touching the others
      have hu : ∀ z ∈ rest, Function.update u x t z = u z := fun z hz =>
        Function.update_of_ne (fun e : z = x => hx (e ▸ hz)) t u
      refine ⟨Function.update u x t, ?_, ?_⟩
      · intro z hz
        rcases List.mem_cons.1 hz with rfl | hz
        · simpa using hp
        · rw [hu z hz]
          exact hps z hz
      · refine .cons (by simpa using hq) (List.forall₂_iff_get.2 ⟨hqs.length_eq, fun i h₁ h₂ => ?_⟩)
        rw [hu _ (List.get_mem _ _)]
        exact (List.forall₂_iff_get.1 hqs).2 i h₁ h₂
    · intro t hp
      refine ⟨(t x, t), ⟨hp x (.head _), fun z hz => hp z (.tail _ hz)⟩, ?_⟩
      rintro v' _ _ ⟨y, ys, rfl, hq, hqs⟩
      exact .cons hq hqs

end Lists

section Leaves

variable {lits : List Literal}

theorem asserts_addClause (hk : ∀ l ∈ lits, v.knows l.var) :
    Asserts v (addClause lits) (∃ l ∈ lits, l.value v.value = true) := by
  constructor
  · intro f _ hf
    rw [formula_addClause, Formula.holds_push v.value_zero] at hf
    exact ⟨(), hf.2, trivial⟩
  · intro f _ hm hc
    refine ⟨v, le_refl v, ⟨?_, ?_, ?_⟩, trivial⟩
    · intro n
      rw [formula_addClause, Formula.numVars_push]
      exact hm.knows_iff n
    · intro c hc l hl
      rw [formula_addClause, Formula.mem_push] at hc
      rcases hc with hc | hc
      · exact hm.closed c hc l hl
      · rcases Clause.mem_of_mem_normalize hc hl with h | rfl
        · exact hk l h
        · exact v.knows_zero
    · rw [formula_addClause, Formula.holds_push v.value_zero]
      exact ⟨hm.holds, hc⟩

theorem offers_fresh : Offers v fresh (fun _ : Prop => True) fun p v' l => v'.Denotes l p := by
  constructor
  · intro f ht _
    exact ⟨_, trivial, denotes_self (ht _)⟩
  · intro f p hm _
    have hn : ¬v.knows f.numVars := fun h => Nat.lt_irrefl _ ((hm.knows_iff _).1 h)
    refine ⟨v.extend f.numVars hn p, le_extend hn, ⟨?_, ?_, ?_⟩, denotes_extend hn⟩
    · intro n
      simp only [formula_fresh]
      exact (or_congr Iff.rfl (hm.knows_iff n)).trans (by omega)
    · intro c hc l hl
      exact (le_extend hn l.var (hm.closed c hc l hl)).1
    · intro c hc
      exact holds_clause_of_le (le_extend hn) (hm.closed c hc) (hm.holds c hc)

end Leaves

end Builder

end MinimalistGrammar.Sat
