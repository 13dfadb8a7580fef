import MinimalistGrammar.Proofs.Selection.Derivation

/-!
The nodes of the derivation of a selection. Each point that is no landing has one node, and one node stands above
another as the one point stands above the other.
-/

open Relation

namespace MinimalistGrammar

namespace Selection

variable {sel : Selection} {p q x y z : PointId} {f : Feature} {d : Derivation} {slot : SlotId} {item : Item}
  {points : List PointId} {place : SlotId → LeafId} {i j : NodeId} {n : Node} {l : LeafId}

/-- The nodes of the derivation are those of the points in the list, and its leaves those of the filled slots. -/
structure Numbered (sel : Selection) (d : Derivation) (place : SlotId → LeafId) (points : List PointId) : Prop where
  preorder : d.IsPreorder
  injective : Function.Injective place
  nodup : points.Nodup
  mem_points : ∀ p, p ∈ points ↔ sel.HasPhrase p
  root : points[0]? = some sel.root
  tree : ∀ t, sel.tree = some t → d.tree = t.relabel place
  nodes : List.Forall₂ (sel.NodeAt place points.idxOf) points d.nodes
  leaf? : ∀ slot item, sel.item? slot = some item → d.leaf? (place slot) = sel.leaf? slot
  exists_slot : ∀ l leaf, d.leaf? l = some leaf → ∃ slot item, sel.item? slot = some item ∧ place slot = l

/-- The nodes and leaves of a derivation can be told by points and slots. -/
theorem IsDerivation.exists_numbered (hf : sel.IsFilled) (hd : sel.IsDerivation) (hder : sel.derivation = .ok d) :
    ∃ place points, sel.Numbered d place points := by
  obtain ⟨t, ht, hleaves, _⟩ := (derivation_eq_ok hf hd).1 hder
  have hb := hd.builds_root hf ht
  have hm := hd.toIsMatching
  obtain ⟨place, hinj, hrelabel, hidx⟩ := exists_place hf hd hder ht
  obtain ⟨points, hps, hnodup, hbelow⟩ := hb.exists_points hf hm hd.isAcyclic
  have hmem := hd.mem_points hf hbelow
  have hroot : points.idxOf sel.root = 0 := idxOf_of_builds hf hps hnodup t.getElem?_phrases_zero hb
  refine ⟨place, points, isPreorder_of_derivation hf hd hder, hinj, hnodup, hmem, ?_, ?_, ?_, fun slot item hi => ?_, fun l leaf hl => ?_⟩
  · have hlt := List.idxOf_lt_length_of_mem ((hmem sel.root).2 (hb.hasPhrase hf))
    rw [List.getElem?_eq_some_iff]
    exact ⟨hroot ▸ hlt, by simpa only [hroot] using List.getElem_idxOf hlt⟩
  · intro t' ht'
    rw [ht, Option.some.injEq] at ht'
    exact ht' ▸ hrelabel
  · rw [isPreorder_of_derivation hf hd hder, hrelabel, Tree.nodes_relabel hinj]
    exact forall₂_nodeAt hf hd hps hnodup hmem
  · have hs := (mem_leaves_root hf hd hb).2 ⟨item, hi⟩
    rw [hidx slot hs]
    exact leaf?_idxOf hs hleaves
  · obtain ⟨hlt, _⟩ := List.getElem?_eq_some_iff.1 hl
    have hlt' : l < t.leaves.length := hleaves.length_eq ▸ hlt
    have hs := List.getElem_mem hlt'
    obtain ⟨item, hi⟩ := (mem_leaves_root hf hd hb).1 hs
    exact ⟨_, item, hi, (hidx _ hs).trans ((hb.nodup_leaves hf hm hd.isAcyclic).idxOf_getElem l hlt')⟩

namespace NodeAt

variable {number : PointId → NodeId} {l : LeafId} {c : Check} {m : NodeId} {h : NodeId} (hn : sel.NodeAt place number p n)
include hn

theorem head_eq : n.head = place (sel.schema.slotOf p) := by
  cases hn <;> rfl

theorem exists_phrase (hi : i ∈ n.operation.nodes) : ∃ q, sel.HasPhrase q ∧ number q = i := by
  have both : ∀ {p x y f k}, sel.Projects p x y f k → k.polarity ≠ .licensee → i ∈ [number x, number y] →
      ∃ q, sel.HasPhrase q ∧ number q = i := by
    intro p x y f k hp hk hi
    rcases List.mem_pair.1 hi with rfl | rfl
    · exact ⟨x, ⟨f, hp.trigger, hp.ne_licensee⟩, rfl⟩
    · exact ⟨y, ⟨k, hp.target, hk⟩, rfl⟩
  cases hn with
  | lexical _ _ => cases hi
  | merge hp hk _ => exact both hp hk hi
  | headMove hp hk _ => exact both hp hk hi
  | @move x y z f k g hp _ hz hg _ =>
    rcases List.mem_pair.1 hi with rfl | rfl
    · exact ⟨x, ⟨f, hp.trigger, hp.ne_licensee⟩, rfl⟩
    · exact ⟨z, ⟨g, hz, by rw [hg]; decide⟩, rfl⟩

theorem exists_leaf (hf : sel.IsFilled) (hl : l ∈ n.head :: n.operation.leaves) :
    ∃ q f, sel.Carries q f ∧ place (sel.schema.slotOf q) = l := by
  have pair : ∀ {p x y f k}, sel.Projects p x y f k →
      l ∈ [place (sel.schema.slotOf x), place (sel.schema.slotOf y)] →
        ∃ q f, sel.Carries q f ∧ place (sel.schema.slotOf q) = l := by
    intro p x y f k hp hl
    rcases List.mem_pair.1 hl with rfl | rfl
    · exact ⟨x, f, hp.trigger, rfl⟩
    · exact ⟨y, k, hp.target, rfl⟩
  have own : ∀ {p x y f k}, sel.Projects p x y f k → ∃ q f, sel.Carries q f ∧
      place (sel.schema.slotOf q) = place (sel.schema.slotOf p) := fun hp =>
    let ⟨g, hg, _⟩ := hp.carries hf
    ⟨_, g, hg, rfl⟩
  cases hn with
  | lexical hc _ =>
    rcases List.mem_pair.1 hl with rfl | rfl <;> exact ⟨_, _, hc, rfl⟩
  | merge hp _ _ =>
    rcases List.mem_cons.1 hl with rfl | hl
    · exact own hp
    · exact pair hp hl
  | @headMove x y f k hp _ _ =>
    rcases List.mem_cons.1 hl with rfl | hl
    · exact own hp
    · rcases List.mem_cons.1 hl with rfl | hl
      · exact ⟨x, f, hp.trigger, rfl⟩
      · rcases List.mem_pair.1 hl with rfl | rfl <;> exact ⟨y, k, hp.target, rfl⟩
  | move hp _ _ _ _ =>
    rcases List.mem_cons.1 hl with rfl | hl
    · exact own hp
    · exact pair hp hl

theorem exists_check (hc : n.operation.check? = some c) : ∃ x y f k, sel.Projects p x y f k ∧
    c = ⟨(sel.featureRef x).rename place, (sel.featureRef y).rename place⟩ := by
  cases hn with
  | lexical _ _ => cases hc
  | merge hp _ _ => exact ⟨_, _, _, _, hp, (Option.some.inj hc).symm⟩
  | headMove hp _ _ => exact ⟨_, _, _, _, hp, (Option.some.inj hc).symm⟩
  | move hp _ _ _ _ => exact ⟨_, _, _, _, hp, (Option.some.inj hc).symm⟩

end NodeAt

namespace Numbered

variable (hf : sel.IsFilled) (hm : sel.IsMatching) (h : sel.Numbered d place points)

include h in
theorem idxOf_injective (hp : sel.HasPhrase p) (he : points.idxOf p = points.idxOf q) : p = q :=
  (List.idxOf_inj ((h.mem_points p).2 hp)).1 he

include h in
theorem exists_point (hn : d.nodes[i]? = some n) :
    ∃ p, (sel.HasPhrase p ∧ points.idxOf p = i) ∧ sel.NodeAt place points.idxOf p n := by
  obtain ⟨hi, rfl⟩ := List.getElem?_eq_some_iff.1 hn
  have hi' : i < points.length := h.nodes.length_eq ▸ hi
  exact ⟨points[i], ⟨(h.mem_points _).1 (List.getElem_mem hi'), h.nodup.idxOf_getElem i hi'⟩, h.nodes.get hi' hi⟩

include h in
theorem exists_node (hp : sel.HasPhrase p) :
    ∃ n, d.nodes[points.idxOf p]? = some n ∧ sel.NodeAt place points.idxOf p n := by
  have hlt := List.idxOf_lt_length_of_mem ((h.mem_points p).2 hp)
  have hlt' : points.idxOf p < d.nodes.length := h.nodes.length_eq ▸ hlt
  have hnode := h.nodes.get hlt hlt'
  rw [List.get_eq_getElem, List.get_eq_getElem, List.getElem_idxOf hlt] at hnode
  exact ⟨_, List.getElem?_eq_getElem hlt', hnode⟩

include h in
theorem leaf_lt (hi : sel.item? slot = some item) : place slot < d.leaves.length := by
  obtain ⟨leaf, hl⟩ := leaf?_eq_some hi
  exact (List.getElem?_eq_some_iff.1 ((h.leaf? slot item hi).trans hl)).1

include h in
theorem leaf_slotOf_lt (hc : sel.Carries p f) : place (sel.schema.slotOf p) < d.leaves.length := by
  obtain ⟨item, hi⟩ := hc.exists_item
  exact h.leaf_lt hi

include h in
theorem feature?_featureRef (hc : sel.Carries p f) : d.feature? ((sel.featureRef p).rename place) = some f := by
  obtain ⟨_, item, hi, hfeat⟩ := carries_iff.1 hc
  have hleaf := h.leaf? _ item hi
  rw [Selection.leaf?, hi, Option.map_some] at hleaf
  rw [Derivation.feature?, FeatureRef.rename, featureRef, hleaf, Option.bind_some]
  exact hfeat

include hf h in
theorem exists_carries {r : FeatureRef} (hr : d.feature? r = some f) :
    ∃ p, sel.Carries p f ∧ (sel.featureRef p).rename place = r := by
  obtain ⟨leaf, hleaf, hfeat⟩ := Option.bind_eq_some_iff.1 hr
  obtain ⟨slot, item, hi, he⟩ := h.exists_slot _ _ hleaf
  rw [← he, h.leaf? slot item hi, Selection.leaf?, hi, Option.map_some, Option.some.injEq] at hleaf
  subst hleaf
  obtain ⟨p, hp, hc⟩ := hf.exists_carries hi hfeat
  refine ⟨p, hc, ?_⟩
  have hpoint := (hf.built.pointAt?_eq_some.1 hp).2
  rw [featureRef, Schema.slotOf, hpoint, FeatureRef.rename, he]

include hf hm

theorem mem_daughters {number : PointId → NodeId} (hn : sel.NodeAt place number p n) :
    j ∈ n.operation.daughters ↔ ∃ q, sel.HasPhrase q ∧ sel.Step q p ∧ number q = j := by
  have both : ∀ {x y f k}, sel.Projects p x y f k → k.polarity ≠ .licensee →
      (j ∈ [number x, number y] ↔ ∃ q, sel.HasPhrase q ∧ sel.Step q p ∧ number q = j) := by
    intro x y f k hp hk
    rw [List.mem_cons, List.mem_singleton]
    constructor
    · rintro (rfl | rfl)
      · exact ⟨x, ⟨f, hp.trigger, hp.ne_licensee⟩, hp.step_trigger, rfl⟩
      · exact ⟨y, ⟨k, hp.target, hk⟩, hp.step_target hm, rfl⟩
    · rintro ⟨q, hq, hs, rfl⟩
      exact ((hp.step_iff hf hm hq.lt).1 hs).imp (congrArg number) (congrArg number)
  cases hn with
  | lexical hc hnone =>
    refine ⟨fun h => (by cases h), fun ⟨q, hq, hs, _⟩ => ?_⟩
    exact absurd hs (not_step_of_predecessor_none hf hm hnone hq.lt)
  | merge hp hk _ => exact both hp hk
  | headMove hp hk _ => exact both hp hk
  | @move x y z f k g hp hk _ _ _ =>
    rw [Operation.daughters, List.mem_singleton]
    constructor
    · rintro rfl
      exact ⟨x, ⟨f, hp.trigger, hp.ne_licensee⟩, hp.step_trigger, rfl⟩
    · rintro ⟨q, hq, hs, rfl⟩
      rcases (hp.step_iff hf hm hq.lt).1 hs with rfl | rfl
      · rfl
      · exact absurd hk (hq.ne_licensee hp.target)

include h

theorem isMother_iff (hp : sel.HasPhrase p) :
    IsMother d.nodes (points.idxOf p) j ↔ ∃ q, sel.HasPhrase q ∧ sel.Step q p ∧ points.idxOf q = j := by
  constructor
  · rintro ⟨n, hn, hj⟩
    obtain ⟨p', ⟨hp', he⟩, hnode⟩ := h.exists_point hn
    obtain rfl := h.idxOf_injective hp' he
    exact (mem_daughters hf hm hnode).1 hj
  · intro hj
    obtain ⟨n, hn, hnode⟩ := h.exists_node hp
    exact ⟨n, hn, (mem_daughters hf hm hnode).2 hj⟩

/-- A node stands above another as the one point stands above the other. -/
theorem isAbove_iff (hp : sel.HasPhrase p) (hq : sel.HasPhrase q) :
    IsAbove d.nodes (points.idxOf p) (points.idxOf q) ↔ TransGen sel.Step q p := by
  constructor
  · intro habove
    generalize hi : points.idxOf p = i at habove
    induction habove using TransGen.head_induction_on generalizing p with
    | single hmother =>
      obtain ⟨q', hq', hs, he⟩ := (h.isMother_iff hf hm hp).1 (hi ▸ hmother)
      obtain rfl := h.idxOf_injective hq' he
      exact .single hs
    | head hmother _ ih =>
      obtain ⟨q', hq', hs, rfl⟩ := (h.isMother_iff hf hm hp).1 (hi ▸ hmother)
      exact (ih hq' rfl).tail hs
  · intro hs
    induction hs using TransGen.head_induction_on with
    | single hs => exact .single ((h.isMother_iff hf hm hp).2 ⟨_, hq, hs, rfl⟩)
    | head hs _ ih =>
      have hr := hasPhrase_of_step hf hm hq.lt hs
      exact (ih hr).tail ((h.isMother_iff hf hm hr).2 ⟨_, hq, hs, rfl⟩)

end Numbered

end Selection

end MinimalistGrammar
