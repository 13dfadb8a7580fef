import MinimalistGrammar.Encoding.Dominance
import MinimalistGrammar.Proofs.Encoding.Checking
import MinimalistGrammar.Proofs.Reachability
import MinimalistGrammar.Proofs.Selection.Dominance

/-!
The dominance literals: their clauses can be met exactly when nothing stands above itself, and then they say
which points stand above which.
-/

open Relation

namespace MinimalistGrammar

open MinimalistGrammar.Sat
open MinimalistGrammar.Sat.Builder

namespace Dominance

section Closure

variable {sel : Selection} {A D : PointId → PointId → Prop} {a b p q : PointId}

/-- What the clauses say of a relation `D` between points, of which only pairs in `A` have literals. -/
structure Closed (sel : Selection) (A D : PointId → PointId → Prop) : Prop where
  includes : ∀ p < sel.schema.pointCount, ∀ q, sel.Step p q →
    (A q p → D q p) ∧ ∀ a, A a q → D a q → a ≠ p ∧ (A a p → D a p)
  requires : ∀ b < sel.schema.pointCount, ∀ a, A a b → D a b →
    (∃ q, sel.Step b q) ∧ ∀ q, sel.Step b q → q = a ∨ (A a q ∧ D a q)

/-- Enough pairs have literals. -/
structure Covers (sel : Selection) (A : PointId → PointId → Prop) : Prop where
  step : ∀ p q, p < sel.schema.pointCount → sel.Step p q → p ≠ q ∧ A q p
  trans : ∀ p q a, p < sel.schema.pointCount → sel.Step p q → A a q → a ≠ p → A a p

variable (hf : sel.IsFilled) (hA : Covers sel A)
include hf hA

theorem Covers.of_transGen (ha : sel.IsAcyclic) (hb : b < sel.schema.pointCount)
    (h : TransGen sel.Step b a) : A a b := by
  induction h using TransGen.head_induction_on with
  | single h => exact (hA.step _ _ hb h).2
  | head h hrest ih =>
    refine hA.trans _ _ a hb h (ih (Selection.step_lt hf h)) ?_
    rintro rfl
    exact ha _ (.head h hrest)

theorem Closed.of_transGen (hD : Closed sel A D) (hb : b < sel.schema.pointCount)
    (h : TransGen sel.Step b a) : a ≠ b ∧ A a b ∧ D a b := by
  induction h using TransGen.head_induction_on with
  | single h =>
    obtain ⟨hne, hab⟩ := hA.step _ _ hb h
    exact ⟨hne.symm, hab, (hD.includes _ hb _ h).1 hab⟩
  | head h _ ih =>
    obtain ⟨_, haq, hDaq⟩ := ih (Selection.step_lt hf h)
    obtain ⟨hne, hin⟩ := (hD.includes _ hb _ h).2 a haq hDaq
    have hab := hA.trans _ _ a hb h haq hne
    exact ⟨hne, hab, hin hab⟩

theorem Closed.isAcyclic (hD : Closed sel A D) : sel.IsAcyclic := fun _ h =>
  (hD.of_transGen hf hA (Selection.transGen_lt hf h) h).1 rfl

theorem Closed.transGen (hD : Closed sel A D) (hb : b < sel.schema.pointCount) (hab : A a b) (h : D a b) :
    TransGen sel.Step b a := by
  -- by the number of points above
  induction hn : (sel.ancestors b).length generalizing b with
  | zero =>
    obtain ⟨q, hq⟩ := (hD.requires b hb a hab h).1
    rw [Selection.length_ancestors_of_step hf (hD.isAcyclic hf hA) hb hq] at hn
    omega
  | succ n ih =>
    obtain ⟨⟨q, hq⟩, hrest⟩ := hD.requires b hb a hab h
    rcases hrest q hq with rfl | ⟨haq, hDaq⟩
    · exact .single hq
    · rw [Selection.length_ancestors_of_step hf (hD.isAcyclic hf hA) hb hq] at hn
      exact .head hq (ih (Selection.step_lt hf hq) haq hDaq (by omega))

/-- Only dominance itself meets the clauses, and only where nothing stands above itself. -/
theorem closed_iff : Closed sel A D ↔ sel.IsAcyclic ∧
    ∀ a b, b < sel.schema.pointCount → A a b → (D a b ↔ TransGen sel.Step b a) := by
  constructor
  · intro hD
    exact ⟨hD.isAcyclic hf hA, fun a b hb hab => ⟨hD.transGen hf hA hb hab, fun h =>
      (hD.of_transGen hf hA hb h).2.2⟩⟩
  · rintro ⟨ha, hD⟩
    refine ⟨fun p hp q hs => ⟨fun hqp => (hD q p hp hqp).2 (.single hs), fun a haq hDaq => ?_⟩,
      fun b hb a hab hDab => ?_⟩
    · have hpa : TransGen sel.Step p a := .head hs ((hD a q (Selection.step_lt hf hs) haq).1 hDaq)
      refine ⟨?_, fun hap => (hD a p hp hap).2 hpa⟩
      rintro rfl
      exact ha _ hpa
    · obtain ⟨q, hs, hrest⟩ := TransGen.head'_iff.1 ((hD a b hb hab).1 hDab)
      refine ⟨⟨q, hs⟩, fun q' hs' => ?_⟩
      obtain rfl := hs.unique hs'
      rcases reflTransGen_iff_eq_or_transGen.1 hrest with rfl | htrans
      · exact .inl rfl
      · have haq := hA.of_transGen hf ha (Selection.step_lt hf hs) htrans
        exact .inr ⟨haq, (hD a q (Selection.step_lt hf hs) haq).2 htrans⟩

end Closure

section Parents

variable {v : Valuation} {sel : Selection} {lex : Lexical} {c : Checking} {p q : PointId} {l : Literal}

/-- The literals for what points stand directly below. -/
structure Parents (v : Valuation) (sel : Selection) (parents : PointId → List (PointId × Literal)) : Prop where
  lt : ∀ p < sel.schema.pointCount, ∀ q l, (q, l) ∈ parents p → q < sel.schema.pointCount
  denotes : ∀ p < sel.schema.pointCount, ∀ q l, (q, l) ∈ parents p →
    v.Denotes l (l.value v.value = true) ∧ (l.value v.value = true → sel.Step p q)
  exists_of_step : ∀ p < sel.schema.pointCount, ∀ q, sel.Step p q →
    ∃ l, (q, l) ∈ parents p ∧ l.value v.value = true

theorem mem_steps_upward {s : Schema} : (q, l) ∈ steps (upward s lex c p) ↔
    (lex.trigger p ≠ .bottom ∧ s.successor p = some q ∧ l = lex.trigger p) ∨
      ∃ x, (x, l) ∈ c.checkersOf p ∧ s.successor x = some q := by
  simp only [steps, upward, List.mem_filterMap, List.mem_append, List.mem_map, Option.map_eq_some_iff,
    Prod.mk.injEq]
  constructor
  · rintro ⟨x, hx | ⟨⟨x', k⟩, hk, rfl⟩, q', hq, rfl, rfl⟩
    · split at hx
      · cases hx
      · rename_i hne
        obtain rfl := List.mem_singleton.1 hx
        exact .inl ⟨hne, hq, rfl⟩
    · exact .inr ⟨x', hk, hq⟩
  · rintro (⟨hne, hq, rfl⟩ | ⟨x, hx, hq⟩)
    · exact ⟨(s.successor p, lex.trigger p), .inl (by simp [hne]), q, hq, rfl, rfl⟩
    · exact ⟨(s.successor x, l), .inr ⟨(x, l), hx, rfl⟩, q, hq, rfl, rfl⟩

theorem map_fst_steps (up : List (Option PointId × Literal)) : (steps up).map (·.1) = up.filterMap (·.1) := by
  rw [steps, List.map_filterMap]
  refine List.filterMap_congr fun ⟨parent, _⟩ _ => ?_
  cases parent <;> rfl

section Ends

variable (hf : sel.IsFilled) (hc : c.Describes v sel) (hp : p < sel.schema.pointCount)
include hf hc hp

theorem ne_of_mem_steps (h : (q, l) ∈ steps (upward sel.schema lex c p)) : p ≠ q := by
  rintro rfl
  rcases mem_steps_upward.1 h with ⟨_, hs, _⟩ | ⟨x, hx, hs⟩
  · have := (hf.slotOf_successor hs).2.2
    omega
  · exact (Schema.mem_linkPairs.1 (hc.mem_checkersOf hp hx).1).2.1 (hf.slotOf_successor hs).2.1.symm

theorem nodup_steps_upward : ((steps (upward sel.schema lex c p)).map (·.1)).Nodup := by
  rw [map_fst_steps, upward, List.filterMap_append, List.filterMap_map, List.nodup_append]
  refine ⟨?_, ?_, fun q hq q' hq' => ?_⟩
  · split
    · exact List.nodup_nil
    · cases sel.schema.successor p <;> simp
  · refine List.pairwise_filterMap.2 ((List.pairwise_map.1 (hc.nodup_checkersOf hp)).imp_of_mem ?_)
    rintro ⟨x, k⟩ ⟨x', k'⟩ hx hx' hne z hz z' hz' rfl
    have hlt := (Schema.mem_linkPairs.1 (hc.mem_checkersOf hp hx).1).1.1
    have hlt' := (Schema.mem_linkPairs.1 (hc.mem_checkersOf hp hx').1).1.1
    exact hne (hf.successor_injective hlt hlt' hz hz')
  · rintro rfl
    obtain ⟨⟨x, k⟩, hx, hs'⟩ := List.mem_filterMap.1 hq'
    split at hq
    · cases hq
    · have hs : sel.schema.successor p = some q := by simpa using hq
      have hlink := (Schema.mem_linkPairs.1 (hc.mem_checkersOf hp hx).1).2.1
      exact hlink ((hf.slotOf_successor hs').2.1.symm.trans (hf.slotOf_successor hs).2.1)

/-- No slot ends in a trigger, so no step leads out of one. -/
theorem denotes_of_mem_upward (hlex : lex.Describes v sel) {x : Option PointId × Literal}
    (hx : x ∈ upward sel.schema lex c p) (hn : x.1 = none) : v.Denotes x.2 False := by
  rcases List.mem_append.1 hx with hx | hx
  · split at hx
    · cases hx
    · obtain rfl := List.mem_singleton.1 hx
      refine (hlex.triggers.denotes p hp).congr ⟨fun ⟨f, hcf, ht⟩ => ?_, False.elim⟩
      obtain ⟨q, _, hs, _⟩ := hf.successor_of_isTrigger hcf ht
      exact Option.some_ne_none q (hs.symm.trans hn)
  · obtain ⟨⟨x', l⟩, hl, rfl⟩ := List.mem_map.1 hx
    obtain ⟨q, hs⟩ := Schema.exists_successor_of_mem_linkPairs (hc.mem_checkersOf hp hl).1
    exact absurd (hs.symm.trans hn) (Option.some_ne_none q)

theorem asserts_forbidOpenEnds (hlex : lex.Describes v sel) :
    Asserts v (forbidOpenEnds (upward sel.schema lex c p)) True := by
  refine (Asserts.forM (C := fun _ => True) (fun _ => adds_ite (adds_addClause _) (adds_pure _))
    fun x hx v' hle => ?_).congr (by simp)
  split
  · rename_i hn
    have hd := (denotes_of_mem_upward hf hc hp hlex hx (Option.isNone_iff_eq_none.1 hn)).mono hle
    exact (asserts_unit hd.neg).congr (by simp)
  · exact asserts_pure

end Ends

section Described

variable (hf : sel.IsFilled) (hlex : lex.Describes v sel) (hc : c.Describes v sel)
  (hsub : ∀ l ∈ sel.links, l ∈ sel.schema.linkPairs)
include hlex hc hsub

theorem exists_mem_steps_iff (hp : p < sel.schema.pointCount) :
    (∃ l, (q, l) ∈ steps (upward sel.schema lex c p) ∧ l.value v.value = true) ↔
      (∃ f, sel.Carries p f ∧ f.polarity.isTrigger = true ∧ sel.schema.successor p = some q) ∨
        ∃ x, (x, p) ∈ sel.links ∧ sel.schema.successor x = some q := by
  have hd := hlex.triggers.denotes p hp
  constructor
  · rintro ⟨l, hl, hv⟩
    rcases mem_steps_upward.1 hl with ⟨_, hs, rfl⟩ | ⟨x, hx, hs⟩
    · obtain ⟨f, hcf, ht⟩ := hd.2.1 hv
      exact .inl ⟨f, hcf, ht, hs⟩
    · exact .inr ⟨x, (hc.mem_checkersOf hp hx).2.2.1 hv, hs⟩
  · rintro (⟨f, hcf, ht, hs⟩ | ⟨x, hx, hs⟩)
    · have hv : (lex.trigger p).value v.value = true := hd.2.2 ⟨f, hcf, ht⟩
      exact ⟨lex.trigger p, mem_steps_upward.2 (.inl ⟨hd.ne_bottom ⟨f, hcf, ht⟩, hs, rfl⟩), hv⟩
    · obtain ⟨l, hl⟩ := hc.exists_mem_checkersOf (hsub _ hx)
      exact ⟨l, mem_steps_upward.2 (.inr ⟨x, hl, hs⟩), (hc.mem_checkersOf hp hl).2.2.2 hx⟩

include hf

omit hsub in
theorem parents_of_step_iff (hstep : ∀ p < sel.schema.pointCount, ∀ q, sel.Step p q ↔
    ∃ l, (q, l) ∈ steps (upward sel.schema lex c p) ∧ l.value v.value = true) :
    Parents v sel fun p => steps (upward sel.schema lex c p) := by
  refine ⟨fun p hp q l hq => ?_, fun p hp q l hq => ⟨?_, fun hv => (hstep p hp q).2 ⟨l, hq, hv⟩⟩,
    fun p hp q => (hstep p hp q).1⟩
  · rcases mem_steps_upward.1 hq with ⟨_, hs, _⟩ | ⟨x, _, hs⟩
    · exact (hf.slotOf_successor hs).1
    · exact (hf.slotOf_successor hs).1
  · rcases mem_steps_upward.1 hq with ⟨_, _, rfl⟩ | ⟨x, hx, _⟩
    · exact Valuation.denotes_self (hlex.triggers.denotes p hp).1
    · exact Valuation.denotes_self (hc.mem_checkersOf hp hx).2.1

theorem parents_upward (hm : sel.IsMatching) : Parents v sel fun p => steps (upward sel.schema lex c p) :=
  parents_of_step_iff hf hlex hc fun _ hp _ => (hm.step_iff hf hp).trans (exists_mem_steps_iff hlex hc hsub hp).symm

end Described

end Parents

section Literals

variable {v : Valuation} {sel : Selection} {d : Dominance} {A D : PointId → PointId → Prop}
  {a b p q : PointId} {l : Literal}

/-- The literals for dominance stand for a relation. -/
structure Denoting (v : Valuation) (sel : Selection) (d : Dominance) (D : PointId → PointId → Prop) : Prop where
  nodup : ∀ b < sel.schema.pointCount, ((d.ancestorsOf b).map (·.1)).Nodup
  denotes : ∀ b < sel.schema.pointCount, ∀ a l, (a, l) ∈ d.ancestorsOf b → v.Denotes l (D a b)

def HasLiteral (d : Dominance) (a b : PointId) : Prop := a ∈ (d.ancestorsOf b).map (·.1)

theorem literal?_eq_some_iff (hD : Denoting v sel d D) (hb : b < sel.schema.pointCount) :
    d.literal? a b = some l ↔ (a, l) ∈ d.ancestorsOf b :=
  ⟨mem_of_lookup, lookup_of_mem (hD.nodup b hb)⟩

theorem exists_literal?_iff (hD : Denoting v sel d D) (hb : b < sel.schema.pointCount) :
    (∃ l, d.literal? a b = some l) ↔ HasLiteral d a b := by
  simp only [literal?_eq_some_iff hD hb]
  constructor
  · rintro ⟨l, hl⟩
    exact List.mem_map_of_mem hl
  · intro h
    obtain ⟨⟨a, l⟩, hl, rfl⟩ := List.mem_map.1 h
    exact ⟨l, hl⟩

theorem denotes_literal? (hD : Denoting v sel d D) (hb : b < sel.schema.pointCount)
    (h : d.literal? a b = some l) : v.Denotes l (D a b) :=
  hD.denotes b hb a l ((literal?_eq_some_iff hD hb).1 h)

theorem Denoting.mono {v' : Valuation} (hD : Denoting v sel d D) (hv : v ≤ v') : Denoting v' sel d D :=
  ⟨hD.nodup, fun b hb a l h => (hD.denotes b hb a l h).mono hv⟩

theorem Parents.congr {parents parents' : PointId → List (PointId × Literal)} (h : Parents v sel parents)
    (he : ∀ p < sel.schema.pointCount, parents' p = parents p) : Parents v sel parents' where
  lt p hp q l hq := h.lt p hp q l (he p hp ▸ hq)
  denotes p hp q l hq := h.denotes p hp q l (he p hp ▸ hq)
  exists_of_step p hp q hs := he p hp ▸ h.exists_of_step p hp q hs

theorem Parents.mono {v' : Valuation} {parents : PointId → List (PointId × Literal)}
    (h : Parents v sel parents) (hv : v ≤ v') : Parents v' sel parents := by
  have same : ∀ p < sel.schema.pointCount, ∀ q l, (q, l) ∈ parents p →
      (l.value v'.value = true ↔ l.value v.value = true) :=
    fun p hp q l hl => ((h.denotes p hp q l hl).1.mono hv).2
  refine ⟨h.lt, fun p hp q l hl => ⟨?_, fun ht => (h.denotes p hp q l hl).2 ((same p hp q l hl).1 ht)⟩,
    fun p hp q hs => ?_⟩
  · exact Valuation.denotes_self ((h.denotes p hp q l hl).1.mono hv).1
  · obtain ⟨l, hl, ht⟩ := h.exists_of_step p hp q hs
    exact ⟨l, hl, (same p hp q l hl).2 ht⟩

theorem adds_includeParents (p : PointId) : Adds (d.includeParents p) :=
  adds_forM (fun _ => adds_bind (adds_option_forM (fun _ => adds_implies _ _) _) fun _ =>
    adds_forM (fun _ => adds_ite (adds_forbid _) (adds_option_forM (fun _ => adds_implies _ _) _)) _) _

/-- What the clauses say of one thing that a point may stand directly below. -/
theorem asserts_includeParent {B : Prop} (hD : Denoting v sel d D) (hp : p < sel.schema.pointCount)
    (hq : q < sel.schema.pointCount) (hl : v.Denotes l B) :
    Asserts v ((d.literal? q p).forM (fun direct => implies [l] direct) >>= fun _ =>
      (d.ancestorsOf q).forM fun y => if y.1 = p then forbid [l, y.2]
        else (d.literal? y.1 p).forM fun through => implies [l, y.2] through)
      (B → (HasLiteral d q p → D q p) ∧
        ∀ a, HasLiteral d a q → D a q → a ≠ p ∧ (HasLiteral d a p → D a p)) := by
  -- the parent dominates the point
  have direct : Asserts v ((d.literal? q p).forM fun direct => implies [l] direct)
      (B → HasLiteral d q p → D q p) := by
    refine (Asserts.option_forM (C := fun _ => B → D q p) fun k hk => ?_).congr ?_
    · exact asserts_implies_one hl (denotes_literal? hD hp hk)
    · rw [← exists_literal?_iff hD hp]
      exact ⟨fun h hB ⟨k, hk⟩ => h k hk hB, fun h k hk hB => h hB ⟨k, hk⟩⟩
  -- so does all that dominates the parent, and the point is not among it
  have through : ∀ v', v ≤ v' → Asserts v' ((d.ancestorsOf q).forM fun y => if y.1 = p then forbid [l, y.2]
      else (d.literal? y.1 p).forM fun through => implies [l, y.2] through)
      (B → ∀ a, HasLiteral d a q → D a q → a ≠ p ∧ (HasLiteral d a p → D a p)) := by
    intro v' hle
    refine (Asserts.forM (C := fun y => B → D y.1 q → y.1 ≠ p ∧ (HasLiteral d y.1 p → D y.1 p))
      (fun _ => adds_ite (adds_forbid _) (adds_option_forM (fun _ => adds_implies _ _) _)) ?_).congr ?_
    · rintro ⟨a, k⟩ hy w hle'
      have hvw := Valuation.le_trans hle hle'
      have hk := (hD.denotes q hq a k hy).mono hvw
      split
      · rename_i hap
        refine (asserts_forbid_two (hl.mono hvw) hk).congr ?_
        exact ⟨fun h hB hd => absurd ⟨hB, hd⟩ h, fun h ⟨hB, hd⟩ => (h hB hd).1 hap⟩
      · rename_i hap
        refine (Asserts.option_forM (C := fun _ => B → D a q → D a p) fun k' hk' => ?_).congr ?_
        · exact asserts_implies_two (hl.mono hvw) hk ((denotes_literal? hD hp hk').mono hvw)
        · rw [← exists_literal?_iff hD hp]
          exact ⟨fun h hB hd => ⟨hap, fun ⟨k', hk'⟩ => h k' hk' hB hd⟩,
            fun h k' hk' hB hd => (h hB hd).2 ⟨k', hk'⟩⟩
    · constructor
      · intro h hB a ha hd
        obtain ⟨⟨a, k⟩, hy, rfl⟩ := List.mem_map.1 ha
        exact h (a, k) hy hB hd
      · exact fun h y hy hB => h hB y.1 (List.mem_map_of_mem hy)
  refine (Asserts.bind direct (fun _ => adds_forM (fun _ => adds_ite (adds_forbid _)
    (adds_option_forM (fun _ => adds_implies _ _) _)) _) fun v' _ hle _ => through v' hle).congr ?_
  exact ⟨fun h hB => ⟨h.1 hB, h.2 hB⟩, fun h => ⟨fun hB => (h hB).1, fun hB => (h hB).2⟩⟩

theorem asserts_includeParents (hP : Parents v sel d.parentsOf) (hD : Denoting v sel d D)
    (hp : p < sel.schema.pointCount) : Asserts v (d.includeParents p) (∀ q, sel.Step p q →
      (HasLiteral d q p → D q p) ∧ ∀ a, HasLiteral d a q → D a q → a ≠ p ∧ (HasLiteral d a p → D a p)) := by
  refine (Asserts.forM (C := fun x => x.2.value v.value = true → (HasLiteral d x.1 p → D x.1 p) ∧
    ∀ a, HasLiteral d a x.1 → D a x.1 → a ≠ p ∧ (HasLiteral d a p → D a p)) (fun _ => ?_)
      fun x hx v' hle => ?_).congr ?_
  · exact adds_bind (adds_option_forM (fun _ => adds_implies _ _) _) fun _ =>
      adds_forM (fun _ => adds_ite (adds_forbid _) (adds_option_forM (fun _ => adds_implies _ _) _)) _
  · exact asserts_includeParent (hD.mono hle) hp (hP.lt p hp x.1 x.2 hx)
      ((hP.denotes p hp x.1 x.2 hx).1.mono hle)
  · constructor
    · intro h q hs
      obtain ⟨l, hl, hv⟩ := hP.exists_of_step p hp q hs
      exact h (q, l) hl hv
    · exact fun h x hx hv => h x.1 ((hP.denotes p hp x.1 x.2 hx).2 hv)

theorem adds_requireParent (isParent : PointId × Literal) : Adds (if isParent.1 = a then pure () else
    match d.literal? a isParent.1 with
    | some upper => implies [l, isParent.2] upper
    | none => forbid [l, isParent.2]) := by
  refine adds_ite (adds_pure _) ?_
  split
  · exact adds_implies _ _
  · exact adds_forbid _

theorem adds_requireParents (a b : PointId) (l : Literal) : Adds (d.requireParents a b l) :=
  adds_bind (adds_impliesAny _ _) fun _ => adds_forM adds_requireParent _

/-- What the clauses say of one thing that a point stands directly below when it is dominated. -/
theorem asserts_requireParent {A B : Prop} {k : Literal} (hD : Denoting v sel d D) (hq : q < sel.schema.pointCount)
    (hl : v.Denotes l A) (hk : v.Denotes k B) :
    Asserts v (if q = a then pure () else
      match d.literal? a q with
      | some upper => implies [l, k] upper
      | none => forbid [l, k]) (A → B → q = a ∨ (HasLiteral d a q ∧ D a q)) := by
  split
  · rename_i hqa
    exact asserts_pure.congr ⟨fun _ _ _ => .inl hqa, fun _ => trivial⟩
  · rename_i hqa
    split
    · rename_i upper hu
      have hlit := (exists_literal?_iff hD hq).1 ⟨upper, hu⟩
      refine (asserts_implies_two hl hk (denotes_literal? hD hq hu)).congr ?_
      exact ⟨fun h hA hB => .inr ⟨hlit, h hA hB⟩, fun h hA hB => ((h hA hB).resolve_left hqa).2⟩
    · rename_i hn
      have hlit : ¬HasLiteral d a q := fun h => by
        obtain ⟨u, hu⟩ := (exists_literal?_iff hD hq).2 h
        rw [hn] at hu
        cases hu
      refine (asserts_forbid_two hl hk).congr ?_
      exact ⟨fun h hA hB => absurd ⟨hA, hB⟩ h, fun h hAB => hlit ((h hAB.1 hAB.2).resolve_left hqa).1⟩

theorem asserts_requireParents (hP : Parents v sel d.parentsOf) (hD : Denoting v sel d D)
    (hb : b < sel.schema.pointCount) (hl : v.Denotes l (D a b)) :
    Asserts v (d.requireParents a b l) (D a b → (∃ q, sel.Step b q) ∧
      ∀ q, sel.Step b q → q = a ∨ (HasLiteral d a q ∧ D a q)) := by
  have exists_parent : Asserts v (impliesAny [l] ((d.parentsOf b).map (·.2)))
      (D a b → ∃ x ∈ d.parentsOf b, x.2.value v.value = true) :=
    (asserts_impliesAny (.cons hl .nil)
      (Valuation.forall₂_denotes_map fun x hx => (hP.denotes b hb x.1 x.2 hx).1)).congr
        (by rw [anyOf_map]; simp)
  refine (Asserts.bind (D := ∀ x ∈ d.parentsOf b, D a b → x.2.value v.value = true →
      x.1 = a ∨ (HasLiteral d a x.1 ∧ D a x.1)) exists_parent (fun _ => adds_forM adds_requireParent _)
    fun v' _ hle _ => ?_).congr ?_
  · refine Asserts.forM adds_requireParent fun x hx v'' hle' => ?_
    have hvw := Valuation.le_trans hle hle'
    exact asserts_requireParent (hD.mono hvw) (hP.lt b hb x.1 x.2 hx) (hl.mono hvw)
      ((hP.denotes b hb x.1 x.2 hx).1.mono hvw)
  · -- each step from the point has a true literal among its parents, and each true literal is a step
    constructor
    · rintro ⟨h₁, h₂⟩ hd
      constructor
      · obtain ⟨x, hx, hv⟩ := h₁ hd
        exact ⟨x.1, (hP.denotes b hb x.1 x.2 hx).2 hv⟩
      · intro q hs
        obtain ⟨k, hk, hv⟩ := hP.exists_of_step b hb q hs
        exact h₂ (q, k) hk hd hv
    · intro h
      constructor
      · intro hd
        obtain ⟨q, hs⟩ := (h hd).1
        obtain ⟨k, hk, hv⟩ := hP.exists_of_step b hb q hs
        exact ⟨(q, k), hk, hv⟩
      · exact fun x hx hd hv => (h hd).2 x.1 ((hP.denotes b hb x.1 x.2 hx).2 hv)

end Literals

structure Describes (v : Valuation) (sel : Selection) (d : Dominance) : Prop where
  denotes : ∀ a b l, b < sel.schema.pointCount → d.literal? a b = some l → v.Denotes l (TransGen sel.Step b a)
  exists_literal : ∀ a b, b < sel.schema.pointCount → TransGen sel.Step b a → ∃ l, d.literal? a b = some l

theorem Describes.mono {v v' : Valuation} {sel : Selection} {d : Dominance} (h : Describes v sel d)
    (hv : v ≤ v') : Describes v' sel d :=
  ⟨fun a b l hb hl => (h.denotes a b l hb hl).mono hv, h.exists_literal⟩

theorem Describes.not_transGen {v : Valuation} {sel : Selection} {d : Dominance} {a b : PointId}
    (h : Describes v sel d) (hb : b < sel.schema.pointCount) (hn : d.literal? a b = none) :
    ¬TransGen sel.Step b a := fun ht => by
  obtain ⟨l, hl⟩ := h.exists_literal a b hb ht
  rw [hn] at hl
  cases hl

theorem adds_build (s : Schema) (lex : Lexical) (c : Checking) : Adds (build s lex c) := by
  refine adds_bind (adds_forM (fun _ => adds_forM (fun _ => adds_ite (adds_addClause _) (adds_pure _)) _) _)
    fun _ => adds_bind (adds_mapM (fun _ => adds_bind (adds_freshList _) fun _ => adds_pure _) _)
      fun _ => adds_bind (adds_forM adds_includeParents _) fun _ => adds_bind ?_ fun _ => adds_pure _
  exact adds_forM (fun _ => adds_forM (fun _ => adds_option_forM (fun _ => adds_requireParents _ _ _) _) _) _

section Build

variable {v : Valuation} {sel : Selection} {lex : Lexical} {c : Checking} {d : Dominance}
  {parents : Array (List (PointId × Literal))} {A D : PointId → PointId → Prop} {a b p q : PointId}

theorem mem_above {s : Schema} : q ∈ above s parents p ↔ q < s.pointCount ∧ q ≠ p ∧
    q ∈ reachable (fun q => (parents.getD q []).map (·.1)) s.pointIds p := by
  simp [above, Schema.mem_pointIds]

theorem nodup_above {s : Schema} : (above s parents p).Nodup := List.nodup_range.filter _

theorem covers_above (hP : Parents v sel fun p => parents.getD p [])
    (hne : ∀ p q, p < sel.schema.pointCount → sel.Step p q → p ≠ q) :
    Covers sel fun a b => a ∈ above sel.schema parents b := by
  have next : ∀ {p q}, p < sel.schema.pointCount → sel.Step p q → q < sel.schema.pointCount ∧
      q ∈ (parents.getD p []).map (·.1) := by
    intro p q hp hs
    obtain ⟨l, hl, _⟩ := hP.exists_of_step p hp q hs
    exact ⟨hP.lt p hp q l hl, List.mem_map_of_mem hl⟩
  constructor
  · intro p q hp hs
    obtain ⟨hq, hmem⟩ := next hp hs
    refine ⟨hne p q hp hs, mem_above.2 ⟨hq, (hne p q hp hs).symm, ?_⟩⟩
    exact mem_reachable_of_mem_next mem_reachable_self hmem (Schema.mem_pointIds.2 hq)
  · intro p q a hp hs ha hap
    obtain ⟨hq, hmem⟩ := next hp hs
    obtain ⟨halt, _, hr⟩ := mem_above.1 ha
    refine mem_above.2 ⟨halt, hap, reachable_trans ?_ hr⟩
    exact mem_reachable_of_mem_next mem_reachable_self hmem (Schema.mem_pointIds.2 hq)

theorem asserts_requireAllParents (hP : Parents v sel d.parentsOf) (hD : Denoting v sel d D)
    (hlt : ∀ a b, b < sel.schema.pointCount → HasLiteral d a b → a < sel.schema.pointCount) :
    Asserts v (sel.schema.pointIds.forM fun above => sel.schema.pointIds.forM fun below =>
      (d.literal? above below).forM fun l => d.requireParents above below l)
      (∀ b < sel.schema.pointCount, ∀ a, HasLiteral d a b → D a b → (∃ q, sel.Step b q) ∧
        ∀ q, sel.Step b q → q = a ∨ (HasLiteral d a q ∧ D a q)) := by
  refine (Asserts.forM (C := fun a => ∀ b ∈ sel.schema.pointIds, HasLiteral d a b → D a b →
    (∃ q, sel.Step b q) ∧ ∀ q, sel.Step b q → q = a ∨ (HasLiteral d a q ∧ D a q))
    (fun _ => adds_forM (fun _ => adds_option_forM (fun _ => adds_requireParents _ _ _) _) _)
      fun a _ v' hle => ?_).congr ?_
  · refine Asserts.forM (fun _ => adds_option_forM (fun _ => adds_requireParents _ _ _) _)
      fun b hb v'' hle' => ?_
    have hb := Schema.mem_pointIds.1 hb
    have hle'' := Valuation.le_trans hle hle'
    refine (Asserts.option_forM (C := fun _ => D a b → (∃ q, sel.Step b q) ∧
      ∀ q, sel.Step b q → q = a ∨ (HasLiteral d a q ∧ D a q)) fun l hl => ?_).congr ?_
    · exact asserts_requireParents (hP.mono hle'') (hD.mono hle'') hb
        ((denotes_literal? hD hb hl).mono hle'')
    · rw [← exists_literal?_iff hD hb]
      exact ⟨fun h ⟨l, hl⟩ => h l hl, fun h l hl => h ⟨l, hl⟩⟩
  · exact ⟨fun h b hb a hab => h a (Schema.mem_pointIds.2 (hlt a b hb hab)) b (Schema.mem_pointIds.2 hb) hab,
      fun h a _ b hb => h b (Schema.mem_pointIds.1 hb) a⟩

theorem asserts_closed (hP : Parents v sel d.parentsOf) (hD : Denoting v sel d D)
    (hlt : ∀ a b, b < sel.schema.pointCount → HasLiteral d a b → a < sel.schema.pointCount) :
    Asserts v (sel.schema.pointIds.forM d.includeParents >>= fun _ =>
      sel.schema.pointIds.forM fun above => sel.schema.pointIds.forM fun below =>
        (d.literal? above below).forM fun l => d.requireParents above below l)
      (Closed sel (HasLiteral d) D) := by
  have included := Asserts.forM (fun _ => adds_includeParents _) fun p hp v' hle =>
    asserts_includeParents (hP.mono hle) (hD.mono hle) (Schema.mem_pointIds.1 hp)
  refine (Asserts.bind included (fun _ => adds_forM (fun _ => adds_forM (fun _ =>
    adds_option_forM (fun _ => adds_requireParents _ _ _) _) _) _) fun v' _ hle _ =>
      asserts_requireAllParents (hP.mono hle) (hD.mono hle) hlt).congr ?_
  constructor
  · rintro ⟨h₁, h₂⟩
    exact ⟨fun p hp q => h₁ p (Schema.mem_pointIds.2 hp) q, h₂⟩
  · intro h
    exact ⟨fun p hp q => h.includes p (Schema.mem_pointIds.1 hp) q, h.requires⟩

def Keyed (v : Valuation) (keys : List PointId) (D : PointId → Prop) (r : List (PointId × Literal)) : Prop :=
  r.map (·.1) = keys ∧ ∀ k l, (k, l) ∈ r → v.Denotes l (D k)

theorem Keyed.mono {v' : Valuation} {keys : List PointId} {D : PointId → Prop} {r : List (PointId × Literal)}
    (h : Keyed v keys D r) (hv : v ≤ v') : Keyed v' keys D r := ⟨h.1, fun k l hm => (h.2 k l hm).mono hv⟩

theorem offers_ancestors {s : Schema} :
    Offers v (s.pointIds.mapM fun p =>
      freshList (above s parents p).length >>= fun ls => pure ((above s parents p).zip ls))
      (fun _ : PointId → PointId → Prop => True) fun t v' ancestors =>
        List.Forall₂ (fun p => Keyed v' (above s parents p) (t p)) s.pointIds ancestors := by
  refine (Offers.mapM (τ := PointId → Prop) (P := fun _ _ => True)
    (Q := fun p D v' => Keyed v' (above s parents p) D) List.nodup_range (fun _ _ _ _ _ hle h => h.mono hle)
    (fun _ => adds_bind (adds_freshList _) fun _ => adds_pure _)
    fun p _ v' _ => offers_freshKeyed nodup_above).imp ?_ ?_
  · exact fun t _ _ h => ⟨t, trivial, h⟩
  · exact fun t _ => ⟨t, fun _ _ => trivial, fun _ _ _ h => h⟩

theorem Covers.congr {A' : PointId → PointId → Prop} (hf : sel.IsFilled) (h : Covers sel A)
    (hA : ∀ a b, b < sel.schema.pointCount → (A' a b ↔ A a b)) : Covers sel A' := by
  refine ⟨fun p q hp hs => ?_, fun p q a hp hs ha hap => ?_⟩
  · exact ⟨(h.step p q hp hs).1, (hA q p hp).2 (h.step p q hp hs).2⟩
  · exact (hA a p hp).2 (h.trans p q a hp hs ((hA a q (Selection.step_lt hf hs)).1 ha) hap)

theorem spec_closed (hf : sel.IsFilled) {t : PointId → PointId → Prop}
    {ancestors : List (List (PointId × Literal))} (hP : Parents v sel fun p => parents.getD p [])
    (hcovers : Covers sel fun a b => a ∈ above sel.schema parents b)
    (hanc : List.Forall₂ (fun p => Keyed v (above sel.schema parents p) (t p)) sel.schema.pointIds ancestors) :
    Spec v (do
      sel.schema.pointIds.forM (Dominance.mk parents ancestors.toArray).includeParents
      sel.schema.pointIds.forM fun above => sel.schema.pointIds.forM fun below =>
        ((Dominance.mk parents ancestors.toArray).literal? above below).forM fun l =>
          (Dominance.mk parents ancestors.toArray).requireParents above below l
      return Dominance.mk parents ancestors.toArray)
      (sel.IsAcyclic ∧ ∀ a b, b < sel.schema.pointCount → a ∈ above sel.schema parents b →
        (t b a ↔ TransGen sel.Step b a)) fun v' d => Describes v' sel d := by
  set d := Dominance.mk parents ancestors.toArray with hd
  have hlist : ∀ b < sel.schema.pointCount, Keyed v (above sel.schema parents b) (t b) (d.ancestorsOf b) :=
    fun b hb => getD_toArray_of_forall₂_range (d := []) hanc hb
  have hD : Denoting v sel d fun a b => t b a :=
    ⟨fun b hb => (hlist b hb).1 ▸ nodup_above, fun b hb a l => (hlist b hb).2 a l⟩
  have hA : ∀ a b, b < sel.schema.pointCount → (HasLiteral d a b ↔ a ∈ above sel.schema parents b) := by
    intro a b hb
    rw [HasLiteral, (hlist b hb).1]
  have hlt : ∀ a b, b < sel.schema.pointCount → HasLiteral d a b → a < sel.schema.pointCount :=
    fun a b hb h => (mem_above.1 ((hA a b hb).1 h)).1
  have hcov : Covers sel (HasLiteral d) := hcovers.congr hf hA
  -- the clauses leave no choice: dominance alone meets them, and only where there is no cycle
  have hiff : Closed sel (HasLiteral d) (fun a b => t b a) ↔ sel.IsAcyclic ∧
      ∀ a b, b < sel.schema.pointCount → a ∈ above sel.schema parents b → (t b a ↔ TransGen sel.Step b a) := by
    rw [closed_iff hf hcov]
    refine and_congr_right fun _ => forall_congr' fun a => forall_congr' fun b => forall_congr' fun hb => ?_
    rw [hA a b hb]
  have hspec : Spec v ((sel.schema.pointIds.forM d.includeParents >>= fun _ =>
      sel.schema.pointIds.forM fun above => sel.schema.pointIds.forM fun below =>
        (d.literal? above below).forM fun l => d.requireParents above below l) >>= fun _ => pure d)
      (Closed sel (HasLiteral d) fun a b => t b a) fun v' d => Describes v' sel d := by
    refine (asserts_closed (d := d) hP hD hlt).bind_pure fun v' _ hle hclosed _ => ?_
    obtain ⟨ha, heq⟩ := hiff.1 hclosed
    refine ⟨fun a b l hb hl => ?_, fun a b hb h => ?_⟩
    · have hm := (hA a b hb).1 ((exists_literal?_iff hD hb).1 ⟨l, hl⟩)
      exact ((denotes_literal? hD hb hl).mono hle).congr (heq a b hb hm)
    · exact (exists_literal?_iff hD hb).2 (hcov.of_transGen hf ha hb h)
  rw [bind_assoc] at hspec
  exact hspec.congr hiff

theorem parentsOf_build {s : Schema} (lex : Lexical) (c : Checking) (f : Formula) (p : PointId) :
    (result (build s lex c) f).parentsOf p = if p < s.pointCount then steps (upward s lex c p) else [] := by
  have hparents : (result (build s lex c) f).parents = ((s.pointIds.map (upward s lex c)).map steps).toArray := rfl
  rw [parentsOf, hparents, Array.getD_eq_getD_getElem?]
  split
  · rename_i hp
    simp [Schema.pointIds, hp]
  · rename_i hp
    simp [Schema.pointIds, hp]

/-- Where the literals for triggers and links say what stands directly below what, the clauses can be met exactly when
nothing stands above itself. -/
theorem spec_build_of_parents (hf : sel.IsFilled) (hlex : lex.Describes v sel) (hc : c.Describes v sel)
    (hparents : Parents v sel fun p => steps (upward sel.schema lex c p)) :
    Spec v (build sel.schema lex c) sel.IsAcyclic fun v' d => Describes v' sel d := by
  set parents := ((sel.schema.pointIds.map (upward sel.schema lex c)).map steps).toArray with hdef
  have hget : ∀ p < sel.schema.pointCount, parents.getD p [] = steps (upward sel.schema lex c p) := by
    intro p hp
    simp [hdef, Array.getD_eq_getD_getElem?, Schema.pointIds, hp]
  have hP : Parents v sel fun p => parents.getD p [] := hparents.congr hget
  have hcovers := covers_above hP fun p q hp hs => by
    obtain ⟨l, hl, _⟩ := hparents.exists_of_step p hp q hs
    exact ne_of_mem_steps hf hc hp hl
  have open_ends : Asserts v ((sel.schema.pointIds.map (upward sel.schema lex c)).forM forbidOpenEnds) True := by
    refine (Asserts.forM (C := fun _ => True)
      (fun _ => adds_forM (fun _ => adds_ite (adds_addClause _) (adds_pure _)) _) ?_).congr (by simp)
    intro u hu v' hle
    obtain ⟨p, hp, rfl⟩ := List.mem_map.1 hu
    exact asserts_forbidOpenEnds hf (hc.mono hle) (Schema.mem_pointIds.1 hp) (hlex.mono hle)
  have rest : ∀ ancestors : List (List (PointId × Literal)), Adds (do
      sel.schema.pointIds.forM (Dominance.mk parents ancestors.toArray).includeParents
      sel.schema.pointIds.forM fun above => sel.schema.pointIds.forM fun below =>
        ((Dominance.mk parents ancestors.toArray).literal? above below).forM fun l =>
          (Dominance.mk parents ancestors.toArray).requireParents above below l
      return Dominance.mk parents ancestors.toArray) := fun _ =>
    adds_bind (adds_forM adds_includeParents _) fun _ => adds_bind (adds_forM (fun _ => adds_forM (fun _ =>
      adds_option_forM (fun _ => adds_requireParents _ _ _) _) _) _) fun _ => adds_pure _
  refine (Asserts.bind open_ends (fun _ => adds_bind (adds_mapM (fun _ => adds_bind (adds_freshList _)
    fun _ => adds_pure _) _) rest) fun v₁ _ hle₁ _ => (offers_ancestors.bind_spec rest
      fun t v₂ ancestors hle₂ _ hanc => spec_closed hf (hP.mono (Valuation.le_trans hle₁ hle₂)) hcovers hanc).imp
        (R := fun _ : Unit => sel.IsAcyclic) ?_ ?_).congr (by simp)
  · exact fun t _ h hd => ⟨(), h.2.1, hd⟩
  · exact fun _ ha => ⟨fun b a => TransGen sel.Step b a, ⟨trivial, ha, fun _ _ _ _ => Iff.rfl⟩, fun _ _ _ hd => hd⟩

theorem spec_build (hf : sel.IsFilled) (hm : sel.IsMatching) (hlex : lex.Describes v sel)
    (hc : c.Describes v sel) (hsub : ∀ l ∈ sel.links, l ∈ sel.schema.linkPairs) :
    Spec v (build sel.schema lex c) sel.IsAcyclic fun v' d => Describes v' sel d :=
  spec_build_of_parents hf hlex hc (parents_upward hf hlex hc hsub hm)

end Build

end Dominance

end MinimalistGrammar
