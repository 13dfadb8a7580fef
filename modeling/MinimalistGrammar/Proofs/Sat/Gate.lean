import MinimalistGrammar.Proofs.Sat.Offer
import Mathlib.Data.List.Nodup

/-!
Clauses and gates over literals whose meaning is known.
-/

namespace MinimalistGrammar.Sat

@[simp] def AnyOf : List Prop → Prop
  | [] => False
  | p :: ps => p ∨ AnyOf ps

@[simp] def AllOf : List Prop → Prop
  | [] => True
  | p :: ps => p ∧ AllOf ps

section Connectives

variable {ι : Type} {ps qs : List Prop} {xs : List ι} {P : ι → Prop}

theorem anyOf_append : AnyOf (ps ++ qs) ↔ AnyOf ps ∨ AnyOf qs := by
  induction ps with
  | nil => simp
  | cons p ps ih => rw [List.cons_append, AnyOf, AnyOf, ih, or_assoc]

theorem allOf_append : AllOf (ps ++ qs) ↔ AllOf ps ∧ AllOf qs := by
  induction ps with
  | nil => simp
  | cons p ps ih => rw [List.cons_append, AllOf, AllOf, ih, and_assoc]

theorem anyOf_map : AnyOf (xs.map P) ↔ ∃ x ∈ xs, P x := by
  induction xs with
  | nil => simp
  | cons x xs ih => rw [List.map_cons, AnyOf, ih, List.exists_mem_cons_iff]

theorem allOf_map : AllOf (xs.map P) ↔ ∀ x ∈ xs, P x := by
  induction xs with
  | nil => simp
  | cons x xs ih => rw [List.map_cons, AllOf, ih, List.forall_mem_cons]

theorem anyOf_map_not : AnyOf (ps.map Not) ↔ ¬AllOf ps := by
  induction ps with
  | nil => simp
  | cons p ps ih => rw [List.map_cons, AnyOf, AllOf, ih, not_and_or]

theorem anyOf_not_append : AnyOf (ps.map Not ++ qs) ↔ (AllOf ps → AnyOf qs) := by
  rw [anyOf_append, anyOf_map_not, imp_iff_not_or]

end Connectives

namespace Valuation

variable {v v' : Valuation} {lits : List Literal} {ps : List Prop} {ι : Type}

theorem knows_of_denotes (h : List.Forall₂ v.Denotes lits ps) : ∀ l ∈ lits, v.knows l.var := by
  induction h with
  | nil => simp
  | cons h _ ih => exact List.forall_mem_cons.2 ⟨h.1, ih⟩

theorem exists_true_iff (h : List.Forall₂ v.Denotes lits ps) :
    (∃ l ∈ lits, l.value v.value = true) ↔ AnyOf ps := by
  induction h with
  | nil => simp
  | cons h _ ih => rw [List.exists_mem_cons_iff, AnyOf, h.2, ih]

theorem forall_true_iff (h : List.Forall₂ v.Denotes lits ps) :
    (∀ l ∈ lits, l.value v.value = true) ↔ AllOf ps := by
  induction h with
  | nil => simp
  | cons h _ ih => rw [List.forall_mem_cons, AllOf, h.2, ih]

theorem forall₂_denotes_mono (h : List.Forall₂ v.Denotes lits ps) (hv : v ≤ v') :
    List.Forall₂ v'.Denotes lits ps := h.imp fun _ _ hd => hd.mono hv

theorem forall₂_denotes_neg (h : List.Forall₂ v.Denotes lits ps) :
    List.Forall₂ v.Denotes (lits.map (- ·)) (ps.map Not) := by
  induction h with
  | nil => exact .nil
  | cons h _ ih => exact .cons h.neg ih

theorem forall₂_denotes_append {lits' : List Literal} {ps' : List Prop}
    (h : List.Forall₂ v.Denotes lits ps) (h' : List.Forall₂ v.Denotes lits' ps') :
    List.Forall₂ v.Denotes (lits ++ lits') (ps ++ ps') := by
  induction h with
  | nil => exact h'
  | cons h _ ih => exact .cons h ih

theorem forall₂_denotes_map {xs : List ι} {f : ι → Literal} {P : ι → Prop}
    (h : ∀ x ∈ xs, v.Denotes (f x) (P x)) : List.Forall₂ v.Denotes (xs.map f) (xs.map P) := by
  induction xs with
  | nil => exact .nil
  | cons x rest ih => exact .cons (h x (.head _)) (ih fun y hy => h y (.tail _ hy))

end Valuation

namespace Builder

open MinimalistGrammar.Sat.Valuation

variable {v : Valuation} {lits : List Literal} {ps qs : List Prop} {l : Literal} {p q r : Prop}

section Made

theorem made_impliesAny (premises conclusions : List Literal) : Made (impliesAny premises conclusions) :=
  .addClause _

theorem made_implies (premises : List Literal) (l : Literal) : Made (implies premises l) := .addClause _

theorem made_forbid (lits : List Literal) : Made (forbid lits) := .addClause _

theorem made_defineOr (l : Literal) (lits : List Literal) : Made (defineOr l lits) :=
  (made_forM (fun _ => made_implies _ _) lits).bind fun _ => made_impliesAny _ _

theorem made_and (lits : List Literal) : Made (and lits) := by
  unfold and
  split
  · exact .pure _
  · exact .pure _
  · exact Made.fresh.bind fun _ => (made_forM (fun _ => made_implies _ _) _).bind fun _ =>
      (made_implies _ _).bind fun _ => .pure _

theorem made_or (lits : List Literal) : Made (or lits) := by
  unfold or
  split
  · exact .pure _
  · exact .pure _
  · exact Made.fresh.bind fun _ => (made_defineOr _ _).bind fun _ => .pure _

theorem made_freshList (n : Nat) : Made (freshList n) := by
  induction n with
  | zero => exact .pure _
  | succ n ih => exact Made.fresh.bind fun _ => ih.bind fun _ => .pure _

theorem adds_impliesAny (premises conclusions : List Literal) : Adds (impliesAny premises conclusions) :=
  (made_impliesAny premises conclusions).adds

theorem adds_implies (premises : List Literal) (l : Literal) : Adds (implies premises l) := (made_implies premises l).adds

theorem adds_forbid (lits : List Literal) : Adds (forbid lits) := (made_forbid lits).adds

theorem adds_defineOr (l : Literal) (lits : List Literal) : Adds (defineOr l lits) := (made_defineOr l lits).adds

theorem adds_and (lits : List Literal) : Adds (and lits) := (made_and lits).adds

theorem adds_or (lits : List Literal) : Adds (or lits) := (made_or lits).adds

theorem adds_freshList (n : Nat) : Adds (freshList n) := (made_freshList n).adds

end Made

theorem asserts_clause (h : List.Forall₂ v.Denotes lits ps) : Asserts v (addClause lits) (AnyOf ps) :=
  (asserts_addClause (knows_of_denotes h)).congr (exists_true_iff h)

theorem asserts_unit (h : v.Denotes l p) : Asserts v (addClause [l]) p :=
  (asserts_clause (.cons h .nil)).congr (by simp)

theorem asserts_impliesAny {premises conclusions : List Literal} (hp : List.Forall₂ v.Denotes premises ps)
    (hq : List.Forall₂ v.Denotes conclusions qs) :
    Asserts v (impliesAny premises conclusions) (AllOf ps → AnyOf qs) :=
  (asserts_clause (forall₂_denotes_append (forall₂_denotes_neg hp) hq)).congr anyOf_not_append

theorem asserts_implies {premises : List Literal} (hp : List.Forall₂ v.Denotes premises ps)
    (hq : v.Denotes l q) : Asserts v (implies premises l) (AllOf ps → q) :=
  (asserts_impliesAny hp (.cons hq .nil)).congr (by simp)

theorem asserts_implies_one {m : Literal} (hl : v.Denotes l p) (hm : v.Denotes m q) :
    Asserts v (implies [l] m) (p → q) :=
  (asserts_implies (.cons hl .nil) hm).congr (by simp)

theorem asserts_implies_two {m n : Literal} (hl : v.Denotes l p) (hm : v.Denotes m q)
    (hn : v.Denotes n r) : Asserts v (implies [l, m] n) (p → q → r) :=
  (asserts_implies (.cons hl (.cons hm .nil)) hn).congr (by simp)

theorem asserts_forbid (hp : List.Forall₂ v.Denotes lits ps) :
    Asserts v (forbid lits) (¬AllOf ps) :=
  (asserts_clause (forall₂_denotes_neg hp)).congr anyOf_map_not

theorem asserts_forbid_two {m : Literal} (hl : v.Denotes l p) (hm : v.Denotes m q) :
    Asserts v (forbid [l, m]) ¬(p ∧ q) :=
  (asserts_forbid (.cons hl (.cons hm .nil))).congr (by simp)

theorem asserts_defineOr (hl : v.Denotes l q) (h : List.Forall₂ v.Denotes lits ps) :
    Asserts v (defineOr l lits) (q ↔ AnyOf ps) := by
  have each : Asserts v (lits.forM fun m => implies [m] l) (∀ m ∈ lits, m.value v.value = true → q) :=
    Asserts.forM (fun _ => adds_implies _ _) fun m hm _ hle =>
      asserts_implies_one ((denotes_self (knows_of_denotes h m hm)).mono hle) (hl.mono hle)
  have whole : ∀ v' (_ : Unit), v ≤ v' → (∀ m ∈ lits, m.value v.value = true → q) →
      Asserts v' (impliesAny [l] lits) (q → AnyOf ps) := fun _ _ hle _ =>
    (asserts_impliesAny (.cons (hl.mono hle) .nil) (forall₂_denotes_mono h hle)).congr (by simp)
  refine (Asserts.bind each (fun _ => adds_impliesAny _ _) whole).congr ?_
  rw [← exists_true_iff h]
  constructor
  · rintro ⟨h₁, h₂⟩
    exact ⟨h₂, fun ⟨m, hm, hv⟩ => h₁ m hm hv⟩
  · intro h
    exact ⟨fun m hm hv => h.2 ⟨m, hm, hv⟩, h.1⟩

/-- A new literal that some clauses make equivalent to `p`. -/
theorem spec_fresh_defined {d : Literal → Builder Unit} (hg : ∀ l, Adds (d l))
    (h : ∀ v' l q, v ≤ v' → v'.Denotes l q → Asserts v' (d l) (q ↔ p)) :
    Spec v (fresh >>= fun l => d l >>= fun _ => pure l) True fun v' l => v'.Denotes l p := by
  have tail : ∀ q v' l, v ≤ v' → True → v'.Denotes l q →
      Offers v' (d l >>= fun _ => pure l) (fun _ : Unit => (q ↔ p)) fun _ v'' m => v''.Denotes m p := by
    intro q v' l hle _ hl
    exact (h v' l q hle hl).bind_pure fun v'' _ hle' hq _ => (hl.mono hle').congr hq
  refine (Offers.bind offers_fresh (fun l => adds_bind (hg l) fun _ => adds_pure _) tail).imp ?_ ?_
  · exact fun _ _ _ hd => ⟨(), trivial, hd⟩
  · exact fun _ _ => ⟨(p, ()), ⟨trivial, Iff.rfl⟩, fun _ _ _ hd => hd⟩

theorem spec_or (h : List.Forall₂ v.Denotes lits ps) :
    Spec v (or lits) True fun v' l => v'.Denotes l (AnyOf ps) := by
  unfold or
  split
  · cases h
    exact spec_pure (denotes_bottom.congr (by simp))
  · cases h with
    | cons hd htail =>
      cases htail
      exact spec_pure (hd.congr (by simp))
  · exact spec_fresh_defined (fun _ => adds_defineOr _ _) fun _ _ _ hle hl =>
      asserts_defineOr hl (forall₂_denotes_mono h hle)

theorem asserts_defineAnd (hl : v.Denotes l q) (h : List.Forall₂ v.Denotes lits ps) :
    Asserts v ((lits.forM fun m => implies [l] m) >>= fun _ => implies lits l) (q ↔ AllOf ps) := by
  have each : Asserts v (lits.forM fun m => implies [l] m) (∀ m ∈ lits, q → m.value v.value = true) :=
    Asserts.forM (fun _ => adds_implies _ _) fun m hm _ hle =>
      asserts_implies_one (hl.mono hle) ((denotes_self (knows_of_denotes h m hm)).mono hle)
  have whole : ∀ v' (_ : Unit), v ≤ v' → (∀ m ∈ lits, q → m.value v.value = true) →
      Asserts v' (implies lits l) (AllOf ps → q) := fun _ _ hle _ =>
    asserts_implies (forall₂_denotes_mono h hle) (hl.mono hle)
  refine (Asserts.bind each (fun _ => adds_implies _ _) whole).congr ?_
  rw [← forall_true_iff h]
  constructor
  · rintro ⟨h₁, h₂⟩
    exact ⟨fun hq m hm => h₁ m hm hq, h₂⟩
  · intro h
    exact ⟨fun m hm hq => h.1 hq m hm, h.2⟩

theorem spec_and (h : List.Forall₂ v.Denotes lits ps) :
    Spec v (and lits) True fun v' l => v'.Denotes l (AllOf ps) := by
  unfold and
  split
  · cases h
    exact spec_pure (denotes_top.congr (by simp))
  · cases h with
    | cons hd htail =>
      cases htail
      exact spec_pure (hd.congr (by simp))
  · refine spec_fresh_defined (d := fun l => (lits.forM fun m => implies [l] m) >>= fun _ =>
      implies lits l) (fun _ => ?_) fun _ _ _ hle hl => asserts_defineAnd hl (forall₂_denotes_mono h hle)
    exact adds_bind (adds_forM (fun _ => adds_implies _ _) _) fun _ => adds_implies _ _

theorem offers_freshList (n : Nat) :
    Offers v (freshList n) (fun ps : List Prop => ps.length = n) fun ps v' ls =>
      List.Forall₂ v'.Denotes ls ps := by
  induction n generalizing v with
  | zero =>
    refine offers_pure (fun ps h => ?_) ⟨[], rfl⟩
    rw [List.length_eq_zero_iff.1 h]
    exact .nil
  | succ n ih =>
    have tail : ∀ p v' l, v ≤ v' → True → v'.Denotes l p →
        Offers v' (freshList n >>= fun rest => pure (l :: rest)) (fun ps : List Prop => ps.length = n)
          fun ps v'' ls => List.Forall₂ v''.Denotes ls (p :: ps) := by
      intro p v' l _ _ hl
      exact ih.bind_pure fun ps v'' ls hle _ hls => .cons (hl.mono hle) hls
    refine (Offers.bind offers_fresh
      (fun _ => adds_bind (adds_freshList n) fun _ => adds_pure _) tail).imp ?_ ?_
    · rintro ⟨p, ps⟩ ls ⟨_, hl⟩ h
      exact ⟨p :: ps, by simp [hl], h⟩
    · intro ps hl
      obtain ⟨p, ps, rfl⟩ := List.exists_cons_of_length_eq_add_one hl
      exact ⟨(p, ps), ⟨trivial, by simpa using hl⟩, fun _ _ _ h => h⟩

theorem offers_freshKeyed {κ : Type} {keys : List κ} (hn : keys.Nodup) :
    Offers v (freshList keys.length >>= fun ls => pure (keys.zip ls)) (fun _ : κ → Prop => True)
      fun D v' r => r.map (·.1) = keys ∧ ∀ k l, (k, l) ∈ r → v'.Denotes l (D k) := by
  have listed : Offers v (freshList keys.length >>= fun ls => pure (keys.zip ls))
      (fun ps : List Prop => ps.length = keys.length)
      fun ps v' r => ∃ ls, List.Forall₂ v'.Denotes ls ps ∧ r = keys.zip ls :=
    (offers_freshList keys.length).bind_pure fun ps v' ls _ _ hls => ⟨ls, hls, rfl⟩
  have keys_eq : ∀ {v' : Valuation} {ps : List Prop} {ls : List Literal}, ps.length = keys.length →
      List.Forall₂ v'.Denotes ls ps → (keys.zip ls).map (·.1) = keys := by
    intro v' ps ls hps hls
    exact List.map_fst_zip (Nat.le_of_eq (hps.symm.trans hls.length_eq.symm))
  refine listed.imp ?_ ?_
  · rintro ps _ hps ⟨ls, hls, rfl⟩
    -- what a key stands for is read off its literal
    refine ⟨fun k => ∃ l, (k, l) ∈ keys.zip ls ∧ l.value v.value = true, trivial, keys_eq hps hls, ?_⟩
    intro k l hm
    refine ⟨knows_of_denotes hls l (List.of_mem_zip hm).2, fun h => ⟨l, hm, h⟩, ?_⟩
    rintro ⟨l', hm', h⟩
    have he := List.inj_on_of_nodup_map (by rw [keys_eq hps hls]; exact hn) hm hm' rfl
    rwa [(Prod.mk.inj he).2]
  · intro D _
    refine ⟨keys.map D, by simp, ?_⟩
    rintro v' _ _ ⟨ls, hls, rfl⟩
    refine ⟨keys_eq (by simp) hls, fun k l hm => ?_⟩
    rw [List.forall₂_map_right_iff] at hls
    exact List.forall₂_zip hls.flip hm

end Builder

end MinimalistGrammar.Sat
