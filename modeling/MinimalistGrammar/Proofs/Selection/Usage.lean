import MinimalistGrammar.Proofs.Derivation.Usage
import MinimalistGrammar.Proofs.Selection.WordOrder

/-!
What a derivation uses up. The checks of a tree take each feature below its root once, so there are as many movements
and hosts in it as in the selection.
-/

open Relation

namespace MinimalistGrammar

namespace Selection

variable {sel : Selection} {p q x y : PointId} {f k : Feature} {t : Tree} {d : Derivation} {r : FeatureRef}

section Spent

variable (hf : sel.IsFilled) (hd : sel.IsDerivation)
include hf

theorem featureRef_injective (hp : p < sel.schema.pointCount) (hq : q < sel.schema.pointCount)
    (h : sel.featureRef p = sel.featureRef q) : p = q :=
  hf.built.point_eq hp hq (congrArg FeatureRef.leaf h) (congrArg FeatureRef.index h)

theorem Projects.takesUp (hp : sel.Projects p x y f k) (hmoves : f.movesHead = true) :
    sel.TakesUp (sel.schema.slotOf x) (sel.schema.slotOf y) := by
  obtain ⟨hx, _⟩ := hf.index_eq_zero_of_movesHead hp.trigger hmoves
  have hs := hf.built.slotOf_lt hp.trigger.1
  exact ⟨(isHost_iff hf hs).2 ⟨f, hx ▸ hp.trigger, hmoves⟩, y, hx ▸ hp.link, rfl⟩

theorem Builds.hosts_sublist_spent (h : sel.Builds p t) :
    (t.hosts.map fun h => (⟨h.1, 0⟩ : FeatureRef)).Sublist t.spent := by
  induction h with
  | lexical _ _ => exact .slnil
  | @merge p x y f k h a hp _ _ _ ihh iha =>
    rw [Tree.spent_merge, Tree.hosts, List.append_assoc, List.map_append, List.map_append]
    cases hmoves : f.movesHead with
    | false => exact ((ihh.append iha).cons _).cons _
    | true =>
      have hx : sel.featureRef x = ⟨sel.schema.slotOf x, 0⟩ := by
        have hfirst := (hf.index_eq_zero_of_movesHead hp.trigger hmoves).1
        rw [featureRef, hfirst, hf.built.point_lexicalPoint (hf.built.slotOf_lt hp.trigger.1)]
      rw [hx]
      exact ((ihh.append iha).cons _).cons_cons _
  | move _ _ _ ih =>
    rw [Tree.spent_move]
    exact (ih.cons _).cons _

/-- The checks of a phrase use up what stands below it. -/
theorem Builds.mem_spent (hm : sel.IsMatching) (h : sel.Builds p t) : r ∈ t.spent ↔
    ∃ q, (∃ f, sel.Carries q f) ∧ TransGen sel.Step q p ∧ r = sel.featureRef q := by
  have here : ∀ {p x y f k}, sel.Projects p x y f k → ((∃ q, (∃ f, sel.Carries q f) ∧ TransGen sel.Step q p ∧
      r = sel.featureRef q) ↔ r = sel.featureRef x ∨ r = sel.featureRef y ∨
        (∃ q, (∃ f, sel.Carries q f) ∧ TransGen sel.Step q x ∧ r = sel.featureRef q) ∨
          ∃ q, (∃ f, sel.Carries q f) ∧ TransGen sel.Step q y ∧ r = sel.featureRef q) := by
    intro p x y f k hp
    constructor
    · rintro ⟨q, ⟨g, hg⟩, hq, rfl⟩
      rw [hp.transGen_iff hf hm hg.1, reflTransGen_iff_eq_or_transGen, reflTransGen_iff_eq_or_transGen] at hq
      rcases hq with (rfl | hq) | (rfl | hq)
      · exact .inl rfl
      · exact .inr (.inr (.inl ⟨q, ⟨g, hg⟩, hq, rfl⟩))
      · exact .inr (.inl rfl)
      · exact .inr (.inr (.inr ⟨q, ⟨g, hg⟩, hq, rfl⟩))
    · rintro (rfl | rfl | ⟨q, hg, hq, rfl⟩ | ⟨q, hg, hq, rfl⟩)
      · exact ⟨x, ⟨f, hp.trigger⟩, .single hp.step_trigger, rfl⟩
      · exact ⟨y, ⟨k, hp.target⟩, .single (hp.step_target hm), rfl⟩
      · exact ⟨q, hg, hq.tail hp.step_trigger, rfl⟩
      · exact ⟨q, hg, hq.tail (hp.step_target hm), rfl⟩
  induction h with
  | lexical hc hn =>
    refine ⟨fun h => (by cases h), fun ⟨q, ⟨g, hg⟩, hq, _⟩ => ?_⟩
    exact absurd hq (not_transGen_of_predecessor_none hf hm hn hg.1)
  | merge hp _ _ _ ihh iha =>
    rw [Tree.spent_merge, List.mem_cons, List.mem_cons, List.mem_append, here hp]
    exact or_congr_right (or_congr_right (or_congr ihh iha))
  | move hp hk _ ih =>
    have hnone : ¬∃ q, (∃ f, sel.Carries q f) ∧ TransGen sel.Step q _ ∧ r = sel.featureRef q :=
      fun ⟨q, ⟨g, hg⟩, hq, _⟩ => not_transGen_of_licensee hf hm hp.target hk hg.1 hq
    rw [Tree.spent_move, List.mem_cons, List.mem_cons, here hp, or_iff_left hnone]
    exact or_congr_right (or_congr_right ih)

include hd

theorem Builds.nodup_spent (h : sel.Builds p t) : t.spent.Nodup := by
  have hm := hd.toIsMatching
  -- nothing that stands below a part of the check is one of its two points
  have fresh : ∀ {p x y z w f k}, sel.Projects p x y f k → (z = x ∨ z = y) → (w = x ∨ w = y) →
      ∀ {q g}, sel.Carries q g → TransGen sel.Step q w → sel.featureRef z ≠ sel.featureRef q := by
    intro p x y z w f k hp hz hw q g hg hq he
    have hzlt : z < sel.schema.pointCount := hz.elim (· ▸ hp.trigger.1) (· ▸ hp.target.1)
    obtain rfl := featureRef_injective hf hzlt hg.1 he
    have hstep : ∀ {w}, w = x ∨ w = y → sel.Step w p := fun hw =>
      hw.elim (· ▸ hp.step_trigger) (· ▸ hp.step_target hm)
    obtain ⟨b, hb, hrest⟩ := TransGen.head'_iff.1 hq
    rw [hb.unique (hstep hz)] at hrest
    exact hd.isAcyclic p (TransGen.tail' hrest (hstep hw))
  have pair : ∀ {p x y f k}, sel.Projects p x y f k → sel.featureRef x ≠ sel.featureRef y := by
    intro p x y f k hp he
    have ht := isTrigger_of_checks hp.checks
    rw [hp.trigger.unique (featureRef_injective hf hp.trigger.1 hp.target.1 he ▸ hp.target),
      Polarity.isTrigger_of_isTarget (isTarget_of_checks hp.checks)] at ht
    cases ht
  induction h with
  | lexical _ _ => exact List.nodup_nil
  | @merge p x y f k h a hp _ hh ha ihh iha =>
    have inside : ∀ {z}, z = x ∨ z = y → sel.featureRef z ∉ h.spent ++ a.spent := by
      intro z hz hmem
      rcases List.mem_append.1 hmem with h' | h'
      · obtain ⟨q, ⟨g, hg⟩, hq, he⟩ := (hh.mem_spent hf hm).1 h'
        exact fresh hp hz (.inl rfl) hg hq he
      · obtain ⟨q, ⟨g, hg⟩, hq, he⟩ := (ha.mem_spent hf hm).1 h'
        exact fresh hp hz (.inr rfl) hg hq he
    rw [Tree.spent_merge, List.nodup_cons, List.nodup_cons, List.mem_cons, not_or, List.nodup_append]
    refine ⟨⟨pair hp, inside (.inl rfl)⟩, inside (.inr rfl), ihh, iha, fun r hr r' hr' he => ?_⟩
    obtain ⟨q, ⟨g, hg⟩, hq, rfl⟩ := (hh.mem_spent hf hm).1 hr
    obtain ⟨q', ⟨g', hg'⟩, hq', rfl⟩ := (ha.mem_spent hf hm).1 hr'
    obtain rfl := featureRef_injective hf hg.1 hg'.1 he
    exact hp.disjoint hm hd.isAcyclic hq.to_reflTransGen hq'.to_reflTransGen
  | @move p x y f k h hp _ hh ih =>
    have inside : ∀ {z}, z = x ∨ z = y → sel.featureRef z ∉ h.spent := by
      intro z hz hmem
      obtain ⟨q, ⟨g, hg⟩, hq, he⟩ := (hh.mem_spent hf hm).1 hmem
      exact fresh hp hz (.inl rfl) hg hq he
    rw [Tree.spent_move, List.nodup_cons, List.nodup_cons, List.mem_cons, not_or]
    exact ⟨⟨pair hp, inside (.inl rfl)⟩, inside (.inr rfl), ih⟩

theorem length_landings_le (h : sel.Builds sel.root t) : t.landings.length ≤ sel.schema.bounds.movements := by
  have hsub : t.landings ⊆ sel.landings.map sel.featureRef := by
    intro r hr
    obtain ⟨l, hl, rfl⟩ := (mem_landings_root hf hd h).1 hr
    exact List.mem_map_of_mem hl
  have hle := (((h.nodup_spent hf hd).sublist t.landings_sublist_spent).subperm hsub).length_le
  rw [List.length_map] at hle
  exact Nat.le_trans hle hd.movements

theorem length_hosts_le (h : sel.Builds sel.root t) : t.hosts.length ≤ sel.schema.bounds.headMovements := by
  have hnodup := (h.nodup_spent hf hd).sublist (h.hosts_sublist_spent hf)
  have hsub : (t.hosts.map fun h => (⟨h.1, 0⟩ : FeatureRef)) ⊆ sel.hosts.map fun h => ⟨h.1, 0⟩ := by
    intro r hr
    obtain ⟨⟨host, mover⟩, hh, rfl⟩ := List.mem_map.1 hr
    have htakes := (mem_hosts_root hf hd h).1 hh
    exact List.mem_map.2 ⟨_, mem_hosts.2 ⟨(htakes.carries hf).1, htakes.1, rfl⟩, rfl⟩
  have hle := (hnodup.subperm hsub).length_le
  rw [List.length_map, List.length_map] at hle
  exact Nat.le_trans hle hd.headMovements

end Spent

end Selection

end MinimalistGrammar
