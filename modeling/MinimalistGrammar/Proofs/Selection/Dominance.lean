import MinimalistGrammar.Proofs.Forest
import MinimalistGrammar.Proofs.Selection.Matching
import Mathlib.Data.List.Perm.Subperm

/-!
The points above a point. Where nothing stands above itself, the way up from any point ends before it has
passed all points, and where besides only one point carries a category, it ends there.
-/

open Relation

namespace MinimalistGrammar

namespace Selection

variable {sel : Selection} {p q a b : PointId} {f : Feature} {n : Nat}

def IsAcyclic (sel : Selection) : Prop := ∀ p, ¬TransGen sel.Step p p

theorem IsAcyclic.isForest (ha : sel.IsAcyclic) : IsForest sel.Step := ⟨fun _ _ _ h h' => h.unique h', ha⟩

theorem climb_succ_of_step (h : sel.Step p q) : sel.climb (n + 1) p = q :: sel.climb n q := by
  rw [climb, show sel.parent p = some q from h]

theorem climb_of_forall_not_step (h : ∀ q, ¬sel.Step p q) : sel.climb n p = [] := by
  cases n with
  | zero => rfl
  | succ n =>
    have hp : sel.parent p = none := Option.eq_none_iff_forall_not_mem.2 h
    rw [climb, hp]

theorem transGen_of_mem_climb (h : a ∈ sel.climb n p) : TransGen sel.Step p a := by
  induction n generalizing p with
  | zero => cases h
  | succ n ih =>
    by_cases hs : ∃ q, sel.Step p q
    · obtain ⟨q, hq⟩ := hs
      rw [climb_succ_of_step hq] at h
      rcases List.mem_cons.1 h with rfl | h
      · exact .single hq
      · exact .head hq (ih h)
    · rw [climb_of_forall_not_step (not_exists.1 hs)] at h
      cases h

theorem pairwise_climb : (p :: sel.climb n p).Pairwise (TransGen sel.Step) := by
  induction n generalizing p with
  | zero => exact List.pairwise_singleton _ _
  | succ n ih =>
    refine List.pairwise_cons.2 ⟨fun _ => transGen_of_mem_climb, ?_⟩
    by_cases hs : ∃ q, sel.Step p q
    · obtain ⟨q, hq⟩ := hs
      rw [climb_succ_of_step hq]
      exact ih
    · rw [climb_of_forall_not_step (not_exists.1 hs)]
      exact .nil

/-- A way up that ends early does not go on when more steps are allowed. -/
theorem climb_eq_of_length_lt (h : (sel.climb n p).length < n) {m : Nat} (hm : n ≤ m) :
    sel.climb m p = sel.climb n p := by
  induction n generalizing p m with
  | zero => omega
  | succ n ih =>
    obtain ⟨m, rfl⟩ : ∃ k, m = k + 1 := ⟨m - 1, by omega⟩
    by_cases hs : ∃ q, sel.Step p q
    · obtain ⟨q, hq⟩ := hs
      rw [climb_succ_of_step hq, List.length_cons] at h
      rw [climb_succ_of_step hq, climb_succ_of_step hq, ih (by omega) (by omega)]
    · rw [climb_of_forall_not_step (not_exists.1 hs), climb_of_forall_not_step (not_exists.1 hs)]

theorem step_lt (hf : sel.IsFilled) (h : sel.Step p q) : q < sel.schema.pointCount := by
  have hsucc : ∃ x, sel.schema.successor x = some q := by
    rw [Step, parent, Option.bind_eq_some_iff] at h
    obtain ⟨f, _, h⟩ := h
    cases hp : f.polarity <;> rw [hp] at h
    · exact ⟨p, h⟩
    · obtain ⟨x, _, hx⟩ := Option.bind_eq_some_iff.1 h
      exact ⟨x, hx⟩
    · exact ⟨p, h⟩
    · obtain ⟨x, _, hx⟩ := Option.bind_eq_some_iff.1 h
      exact ⟨x, hx⟩
    · cases h
  obtain ⟨x, hx⟩ := hsucc
  exact (hf.slotOf_successor hx).1

theorem transGen_lt (hf : sel.IsFilled) (h : TransGen sel.Step p q) : q < sel.schema.pointCount := by
  cases h with
  | single h => exact step_lt hf h
  | tail _ h => exact step_lt hf h

theorem reflTransGen_lt (hf : sel.IsFilled) (hp : p < sel.schema.pointCount) (h : ReflTransGen sel.Step p q) :
    q < sel.schema.pointCount := by
  rcases reflTransGen_iff_eq_or_transGen.1 h with rfl | h
  · exact hp
  · exact transGen_lt hf h

section Acyclic

variable (hf : sel.IsFilled) (ha : sel.IsAcyclic) (hp : p < sel.schema.pointCount)
include hf ha hp

theorem length_climb_lt : (sel.climb n p).length < sel.schema.pointCount := by
  have hnodup : (p :: sel.climb n p).Nodup := by
    refine pairwise_climb.imp fun {x y} h e => ?_
    subst e
    exact ha x h
  have hsubset : p :: sel.climb n p ⊆ sel.schema.pointIds := by
    refine List.cons_subset.2 ⟨Schema.mem_pointIds.2 hp, fun x hx => Schema.mem_pointIds.2 ?_⟩
    exact transGen_lt hf (transGen_of_mem_climb hx)
  have := (hnodup.subperm hsubset).length_le
  rwa [Schema.pointIds, List.length_range] at this

theorem ancestors_of_step (h : sel.Step p q) : sel.ancestors p = q :: sel.ancestors q := by
  have hlt := length_climb_lt hf ha hp (n := sel.schema.pointCount)
  have hq := length_climb_lt hf ha (step_lt hf h) (n := sel.schema.pointCount)
  rw [ancestors, ← climb_eq_of_length_lt hlt (Nat.le_succ _), climb_succ_of_step h]
  rfl

theorem length_ancestors_of_step (h : sel.Step p q) :
    (sel.ancestors p).length = (sel.ancestors q).length + 1 := by
  rw [ancestors_of_step hf ha hp h, List.length_cons]

theorem mem_ancestors : a ∈ sel.ancestors p ↔ TransGen sel.Step p a := by
  refine ⟨transGen_of_mem_climb, fun h => ?_⟩
  induction h using TransGen.head_induction_on with
  | single h =>
    rw [ancestors_of_step hf ha hp h]
    exact .head _
  | head h _ ih =>
    rw [ancestors_of_step hf ha hp h]
    exact .tail _ (ih (step_lt hf h))

theorem dominates_iff : sel.dominates a p = true ↔ TransGen sel.Step p a := by
  rw [dominates, decide_eq_true_iff]
  exact mem_ancestors hf ha hp

end Acyclic

def IsTop (sel : Selection) (p : PointId) : Prop := ∃ f, sel.Carries p f ∧ f.polarity = .category

theorem mem_roots : p ∈ sel.roots ↔ sel.IsTop p := by
  simp only [roots, List.mem_map, List.mem_filter, Prod.exists, mem_active, decide_eq_true_eq]
  constructor
  · rintro ⟨q, f, ⟨hc, hf⟩, rfl⟩
    exact ⟨f, hc, hf⟩
  · rintro ⟨f, hc, hf⟩
    exact ⟨p, f, ⟨hc, hf⟩, rfl⟩

theorem nodup_active : (sel.active.map (·.1)).Nodup := by
  have hsub : sel.active.map (·.1) = sel.schema.pointIds.filter fun p => (sel.feature? p).isSome := by
    rw [active, List.map_filterMap, ← List.filterMap_eq_filter]
    congr 1
    funext p
    cases h : sel.feature? p <;> simp [h, Option.guard]
  rw [hsub]
  exact List.nodup_range.filter _

theorem nodup_roots : sel.roots.Nodup := nodup_active.sublist (List.filter_sublist.map _)

/-- The only category stands at the root. -/
def HasRoot (sel : Selection) : Prop := ∃ p, sel.IsTop p ∧ ∀ q, sel.IsTop q → q = p

theorem hasRoot_iff : sel.HasRoot ↔ sel.roots.length = 1 := by
  rw [List.length_eq_one_iff]
  constructor
  · rintro ⟨p, hp, hu⟩
    refine ⟨p, List.perm_singleton.1 ((List.perm_ext_iff_of_nodup nodup_roots (by simp)).2 fun q => ?_)⟩
    rw [mem_roots, List.mem_singleton]
    exact ⟨hu q, fun h => h ▸ hp⟩
  · rintro ⟨p, hp⟩
    refine ⟨p, mem_roots.1 (by simp [hp]), fun q hq => ?_⟩
    simpa [hp] using mem_roots.2 hq

theorem HasRoot.isTop_root (h : sel.HasRoot) : sel.IsTop sel.root := by
  obtain ⟨p, hp⟩ := List.length_eq_one_iff.1 (hasRoot_iff.1 h)
  rw [← mem_roots, root, hp]
  simp

theorem HasRoot.eq_root (h : sel.HasRoot) (hp : sel.IsTop p) : p = sel.root := by
  have hroot := h.isTop_root
  obtain ⟨r, _, hu⟩ := h
  exact (hu p hp).trans (hu _ hroot).symm

theorem not_step_of_isTop (h : sel.IsTop p) : ¬sel.Step p q := by
  obtain ⟨f, hc, hf⟩ := h
  intro hs
  rw [Step, parent, hc.2, Option.bind_some, hf] at hs
  cases hs

/-- All points that have a feature stand below the root. -/
def IsConnected (sel : Selection) : Prop :=
  ∀ p f, sel.Carries p f → p = sel.root ∨ sel.dominates sel.root p = true

theorem IsConnected.isAcyclic (hf : sel.IsFilled) (hm : sel.IsMatching) (hr : sel.HasRoot)
    (hc : sel.IsConnected) : sel.IsAcyclic := by
  intro p h
  have hlt := transGen_lt hf h
  obtain ⟨q, hq, _⟩ := TransGen.head'_iff.1 h
  obtain ⟨⟨f, hcp, _⟩, _⟩ := hm.carries_of_step hf hlt hq
  have hup : ReflTransGen sel.Step p sel.root := by
    rcases hc p f hcp with rfl | hd
    · exact .refl
    · rw [dominates, decide_eq_true_iff] at hd
      exact (transGen_of_mem_climb hd).to_reflTransGen
  have hroot := transGen_self_of_reflTransGen (fun _ _ _ h h' => h.unique h') h hup
  obtain ⟨z, hz, _⟩ := TransGen.head'_iff.1 hroot
  exact not_step_of_isTop hr.isTop_root hz

theorem IsAcyclic.isConnected (hf : sel.IsFilled) (hm : sel.IsMatching) (hr : sel.HasRoot)
    (ha : sel.IsAcyclic) : sel.IsConnected := by
  intro p f hc
  -- by the number of points above
  induction hn : (sel.ancestors p).length generalizing p f with
  | zero =>
    by_cases hcat : f.polarity = .category
    · exact .inl (hr.eq_root ⟨f, hc, hcat⟩)
    · obtain ⟨q, hq⟩ := hm.exists_step hf hc hcat
      rw [length_ancestors_of_step hf ha hc.1 hq] at hn
      omega
  | succ n ih =>
    by_cases hcat : f.polarity = .category
    · exact .inl (hr.eq_root ⟨f, hc, hcat⟩)
    · obtain ⟨q, hq⟩ := hm.exists_step hf hc hcat
      obtain ⟨_, g, hcq, _⟩ := hm.carries_of_step hf hc.1 hq
      rw [length_ancestors_of_step hf ha hc.1 hq] at hn
      rw [dominates_iff hf ha hc.1]
      rcases ih q g hcq (by omega) with rfl | hd
      · exact .inr (.single hq)
      · exact .inr (.head hq ((dominates_iff hf ha hcq.1).1 hd))

end Selection

end MinimalistGrammar
