import MinimalistGrammar.Proofs.Derivation.Node
import MinimalistGrammar.Proofs.Selection.WordOrder

/-!
The nodes of a selection. Each point that is no landing has one, and the phrases of a tree have those of their points.
-/

open Relation

namespace MinimalistGrammar

namespace Selection

variable {sel : Selection} {p q x y z root : PointId} {f g k : Feature} {t : Tree} {d : Derivation} {slot : SlotId}
  {item : Item} {points : List PointId} {place : SlotId → LeafId} {i j : NodeId} {n : Node} {l : LeafId} {leaf : Leaf}

/-- The point has a phrase of its own. -/
def HasPhrase (sel : Selection) (p : PointId) : Prop := ∃ f, sel.Carries p f ∧ f.polarity ≠ .licensee

theorem HasPhrase.lt (h : sel.HasPhrase p) : p < sel.schema.pointCount := by
  obtain ⟨_, hc, _⟩ := h
  exact hc.1

theorem HasPhrase.ne_licensee (h : sel.HasPhrase p) (hc : sel.Carries p f) : f.polarity ≠ .licensee := by
  obtain ⟨g, hg, hl⟩ := h
  exact hc.unique hg ▸ hl

/-- The node of a point, where leaves and nodes are numbered as given. -/
inductive NodeAt (sel : Selection) (place : SlotId → LeafId) (number : PointId → NodeId) : PointId → Node → Prop
  | lexical {p : PointId} {f : Feature} : sel.Carries p f → sel.schema.predecessor p = none →
      NodeAt sel place number p ⟨.lexical (place (sel.schema.slotOf p)), place (sel.schema.slotOf p), 0⟩
  | merge {p x y : PointId} {f k : Feature} : sel.Projects p x y f k → k.polarity ≠ .licensee → f.movesHead = false →
      NodeAt sel place number p
        ⟨.merge (number x) (number y) ⟨(sel.featureRef x).rename place, (sel.featureRef y).rename place⟩,
          place (sel.schema.slotOf p), (sel.schema.point p).index⟩
  | headMove {p x y : PointId} {f k : Feature} : sel.Projects p x y f k → k.polarity ≠ .licensee →
      f.movesHead = true → NodeAt sel place number p
        ⟨.headMove (number x) (number y) ⟨(sel.featureRef x).rename place, (sel.featureRef y).rename place⟩
          (place (sel.schema.slotOf y)), place (sel.schema.slotOf p), (sel.schema.point p).index⟩
  | move {p x y z : PointId} {f k g : Feature} : sel.Projects p x y f k → k.polarity = .licensee → sel.Carries z g →
      g.polarity = .selectee → sel.schema.slotOf z = sel.schema.slotOf y → NodeAt sel place number p
        ⟨.move (number x) (number z) ⟨(sel.featureRef x).rename place, (sel.featureRef y).rename place⟩,
          place (sel.schema.slotOf p), (sel.schema.point p).index⟩

section Points

variable (hf : sel.IsFilled)
include hf

theorem transGen_of_index_lt (hq : sel.Carries q f) (hz : sel.HasPhrase z)
    (hs : sel.schema.slotOf q = sel.schema.slotOf z)
    (hi : (sel.schema.point q).index < (sel.schema.point z).index) : TransGen sel.Step q z := by
  obtain ⟨g, hg, hl⟩ := hz
  obtain ⟨_, item, hitem, hfeat⟩ := carries_iff.1 hg
  -- by the number of points in between
  induction hn : (sel.schema.point z).index - (sel.schema.point q).index generalizing q f with
  | zero => omega
  | succ n ih =>
    obtain ⟨_, item', hitem', hfeat'⟩ := carries_iff.1 hq
    rw [hs, hitem, Option.some.injEq] at hitem'
    subst hitem'
    have hcat : ¬item.categoryIndex < (sel.schema.point z).index := fun h => hl ((Item.licensee_iff hfeat).2 h)
    have ht : f.polarity.isTrigger = true := (Item.isTrigger_iff hfeat').2 (by omega)
    obtain ⟨r, g', hr, hcr, _⟩ := hf.successor_of_isTrigger hq ht
    obtain ⟨_, hslot, hindex⟩ := hf.slotOf_successor hr
    have hstep : sel.Step q r := (step_of_isTrigger hq ht).2 hr
    rcases Nat.lt_or_ge (sel.schema.point r).index (sel.schema.point z).index with h | h
    · exact .head hstep (ih hcr (hslot.trans hs) h (by omega))
    · rw [← hf.built.point_eq hcr.1 hg.1 (hslot.trans hs) (by omega)]
      exact .single hstep

omit hf in
theorem index_le_of_selectee (hz : sel.Carries z g) (hg : g.polarity = .selectee) (hq : sel.HasPhrase q)
    (hs : sel.schema.slotOf q = sel.schema.slotOf z) : (sel.schema.point q).index ≤ (sel.schema.point z).index := by
  obtain ⟨f, hc, hl⟩ := hq
  obtain ⟨_, item, hitem, hfeat⟩ := carries_iff.1 hz
  obtain ⟨_, item', hitem', hfeat'⟩ := carries_iff.1 hc
  rw [hs, hitem, Option.some.injEq] at hitem'
  subst hitem'
  have hcat : ¬item.categoryIndex < (sel.schema.point q).index := fun h => hl ((Item.licensee_iff hfeat').2 h)
  have ht : ¬(sel.schema.point z).index < item.categoryIndex := fun h => by
    have := (Item.isTrigger_iff hfeat).2 h
    rw [hg] at this
    cases this
  omega

theorem Builds.hasPhrase (h : sel.Builds p t) : sel.HasPhrase p := h.carries hf

theorem Builds.point_unique (h : sel.Builds p t) (h' : sel.Builds q t) : p = q :=
  hf.built.point_eq (h.lt hf) (h'.lt hf) ((h.head_eq hf).symm.trans (h'.head_eq hf))
    ((h.index_eq hf).symm.trans (h'.index_eq hf))

theorem hasPhrase_of_step (hm : sel.IsMatching) (hq : q < sel.schema.pointCount) (h : sel.Step q p) : sel.HasPhrase p :=
  (hm.carries_of_step hf hq h).2

theorem HasPhrase.not_below_landing (hm : sel.IsMatching) (hq : sel.HasPhrase q) (hy : sel.Carries y k)
    (hk : k.polarity = .licensee) : ¬ReflTransGen sel.Step q y := by
  intro h
  rcases reflTransGen_iff_eq_or_transGen.1 h with rfl | h
  · exact hq.ne_licensee hy hk
  · exact not_transGen_of_licensee hf hm hy hk hq.lt h

/-- The phrases of a tree are those of the points below its own. -/
theorem Builds.exists_points (hm : sel.IsMatching) (ha : sel.IsAcyclic) (h : sel.Builds p t) : ∃ points,
    List.Forall₂ sel.Builds points t.phrases ∧ points.Nodup ∧
      ∀ q, q ∈ points ↔ sel.HasPhrase q ∧ ReflTransGen sel.Step q p := by
  have not_below : ∀ {p x y f k}, sel.Projects p x y f k →
      ¬ReflTransGen sel.Step p x ∧ ¬ReflTransGen sel.Step p y := fun hp =>
    ⟨fun hx => ha _ (TransGen.tail' hx hp.step_trigger), fun hy => ha _ (TransGen.tail' hy (hp.step_target hm))⟩
  induction h with
  | @lexical p f hc hn =>
    refine ⟨[p], .cons (.lexical hc hn) .nil, List.nodup_singleton p, fun q => ?_⟩
    rw [List.mem_singleton]
    constructor
    · rintro rfl
      exact ⟨(Builds.lexical hc hn).hasPhrase hf, .refl⟩
    · rintro ⟨hq, h⟩
      rcases reflTransGen_iff_eq_or_transGen.1 h with rfl | h
      · rfl
      · exact absurd h (not_transGen_of_predecessor_none hf hm hn hq.lt)
  | @merge p x y f k h a hp hk hh hb ihh iha =>
    obtain ⟨ps, hps, hpsn, hpsm⟩ := ihh
    obtain ⟨qs, hqs, hqsn, hqsm⟩ := iha
    -- nothing is below both parts of a check, so no point comes twice
    obtain ⟨hpx, hpy⟩ := not_below hp
    refine ⟨p :: (ps ++ qs), .cons (.merge hp hk hh hb) (List.rel_append hps hqs), ?_, fun q => ?_⟩
    · refine List.nodup_cons.2 ⟨fun hmem => ?_, List.nodup_append.2 ⟨hpsn, hqsn, fun a hac b hb he => ?_⟩⟩
      · rcases List.mem_append.1 hmem with h | h
        · exact hpx ((hpsm p).1 h).2
        · exact hpy ((hqsm p).1 h).2
      · exact hp.disjoint hm ha ((hpsm a).1 hac).2 (he ▸ ((hqsm b).1 hb).2)
    · rw [List.mem_cons, List.mem_append, hpsm, hqsm, ← and_or_left]
      constructor
      · rintro (rfl | ⟨hq, h⟩)
        · exact ⟨(Builds.merge hp hk hh hb).hasPhrase hf, .refl⟩
        · exact ⟨hq, (hp.reflTransGen_iff hf hm hq.lt).2 (.inr h)⟩
      · rintro ⟨hq, h⟩
        exact ((hp.reflTransGen_iff hf hm hq.lt).1 h).imp_right fun h => ⟨hq, h⟩
  | @move p x y f k h hp hk hh ih =>
    obtain ⟨ps, hps, hpsn, hpsm⟩ := ih
    refine ⟨p :: ps, .cons (.move hp hk hh) hps, List.nodup_cons.2 ⟨fun hmem => ?_, hpsn⟩, fun q => ?_⟩
    · exact (not_below hp).1 ((hpsm p).1 hmem).2
    · rw [List.mem_cons, hpsm]
      constructor
      · rintro (rfl | ⟨hq, h⟩)
        · exact ⟨(Builds.move hp hk hh).hasPhrase hf, .refl⟩
        · exact ⟨hq, (hp.reflTransGen_iff hf hm hq.lt).2 (.inr (.inl h))⟩
      · rintro ⟨hq, h⟩
        refine ((hp.reflTransGen_iff hf hm hq.lt).1 h).imp_right fun h => ⟨hq, h.resolve_right ?_⟩
        exact hq.not_below_landing hf hm hp.target hk

end Points

section Numbering

variable (hf : sel.IsFilled) (hd : sel.IsDerivation) (hps : List.Forall₂ sel.Builds points t.phrases)
  (hnodup : points.Nodup) (hmem : ∀ q, q ∈ points ↔ sel.HasPhrase q)
include hf hps hnodup

theorem idxOf_of_builds {u : Tree} (hu : t.phrases[j]? = some u) (hx : sel.Builds x u) : points.idxOf x = j := by
  obtain ⟨hj, rfl⟩ := List.getElem?_eq_some_iff.1 hu
  have hj' : j < points.length := hps.length_eq ▸ hj
  rw [hx.point_unique hf (hps.get hj' hj)]
  exact hnodup.idxOf_getElem j hj'

include hd

theorem idxOf_lt_of_step (hp : p ∈ points) (hq : sel.HasPhrase q) (h : sel.Step q p) :
    points.idxOf p < points.idxOf q := by
  obtain ⟨i, hi, rfl⟩ := List.getElem_of_mem hp
  have hi' : i < t.phrases.length := hps.length_eq ▸ hi
  rw [hnodup.idxOf_getElem i hi]
  have hb := hps.get hi hi'
  have hu : t.phrases[i]? = some t.phrases[i] := List.getElem?_eq_getElem hi'
  rw [List.get_eq_getElem, List.get_eq_getElem] at hb
  generalize t.phrases[i] = u at hu hb
  generalize points[i] = p at h hb
  cases hb with
  | lexical hc hn => exact absurd h (not_step_of_predecessor_none hf hd.toIsMatching hn hq.lt)
  | merge hpr hk hx hy =>
    rcases (hpr.step_iff hf hd.toIsMatching hq.lt).1 h with rfl | rfl
    · rw [idxOf_of_builds hf hps hnodup (Tree.getElem?_phrases_head hu) hx]
      omega
    · rw [idxOf_of_builds hf hps hnodup (Tree.getElem?_phrases_argument hu) hy]
      omega
  | move hpr hk hx =>
    rcases (hpr.step_iff hf hd.toIsMatching hq.lt).1 h with rfl | rfl
    · rw [idxOf_of_builds hf hps hnodup (Tree.getElem?_phrases_host hu) hx]
      omega
    · exact absurd hk (hq.ne_licensee hpr.target)

include hmem

theorem idxOf_lt_of_transGen (hq : sel.HasPhrase q) (h : TransGen sel.Step q p) :
    points.idxOf p < points.idxOf q := by
  induction h using TransGen.head_induction_on with
  | single h =>
    exact idxOf_lt_of_step hf hd hps hnodup ((hmem _).2 (hasPhrase_of_step hf hd.toIsMatching hq.lt h)) hq h
  | head h _ ih =>
    have hr := hasPhrase_of_step hf hd.toIsMatching hq.lt h
    exact Nat.lt_trans (ih hr) (idxOf_lt_of_step hf hd hps hnodup ((hmem _).2 hr) hq h)

/-- The first phrase in the tree that projects from a slot is the one that is selected. -/
theorem phraseOf_eq_idxOf (hz : sel.Carries z g) (hg : g.polarity = .selectee) :
    t.phraseOf (sel.schema.slotOf z) = points.idxOf z := by
  have hzp : sel.HasPhrase z := ⟨g, hz, by rw [hg]; decide⟩
  have hheads : points.map sel.schema.slotOf = t.phrases.map (·.head) := by
    rw [← List.forall₂_eq_eq_eq, List.forall₂_map_left_iff, List.forall₂_map_right_iff]
    exact hps.imp fun _ _ hb => (hb.head_eq hf).symm
  have hidx : t.phraseOf (sel.schema.slotOf z) = points.findIdx fun p => sel.schema.slotOf p = sel.schema.slotOf z := by
    have hfind : ∀ {α : Type} (l : List α) (k : α → SlotId),
        (l.findIdx fun x => k x = sel.schema.slotOf z) = (l.map k).findIdx fun s => s = sel.schema.slotOf z := by
      intro α l k
      rw [List.findIdx_map]
      rfl
    rw [Tree.phraseOf, hfind, ← hheads, ← hfind]
  have hlt : points.idxOf z < points.length := List.idxOf_lt_length_of_mem ((hmem z).2 hzp)
  rw [hidx, List.findIdx_eq hlt]
  refine ⟨by simp, fun j hj => decide_eq_false fun hs => ?_⟩
  have hjlt : j < points.length := Nat.lt_trans hj hlt
  have hq : sel.HasPhrase points[j] := (hmem _).1 (List.getElem_mem hjlt)
  have hjidx : points.idxOf points[j] = j := hnodup.idxOf_getElem j hjlt
  rcases Nat.lt_or_eq_of_le (index_le_of_selectee hz hg hq hs) with hi | hi
  · obtain ⟨f, hc, _⟩ := hq
    have := idxOf_lt_of_transGen hf hd hps hnodup hmem ⟨f, hc, by assumption⟩ (transGen_of_index_lt hf hc hzp hs hi)
    omega
  · rw [hf.built.point_eq hq.lt hz.1 hs hi] at hjidx
    omega

theorem nodeAt_of_builds {u : Tree} (hu : t.phrases[i]? = some u) (hb : sel.Builds p u) : sel.NodeAt place points.idxOf p
    (Node.rename place ⟨u.operationAt t.phraseOf i, u.head, u.index⟩) := by
  have hhead := hb.head_eq hf
  have hindex := hb.index_eq hf
  have number : ∀ {j : NodeId} {u : Tree} {x : PointId}, t.phrases[j]? = some u → sel.Builds x u → j = points.idxOf x :=
    fun hu hx => (idxOf_of_builds hf hps hnodup hu hx).symm
  rw [Node.rename, hhead, hindex]
  cases hb with
  | lexical hc hn =>
    rw [(hf.built.predecessor_eq_none hc.1).1 hn]
    exact .lexical hc hn
  | @merge p x y f k h a hp hk hx hy =>
    rw [Tree.operationAt, number (Tree.getElem?_phrases_argument hu) hy, number (Tree.getElem?_phrases_head hu) hx]
    cases hmoves : f.movesHead with
    | true => exact .headMove hp hk hmoves
    | false => exact .merge hp hk hmoves
  | @move p x y f k h hp hk hx =>
    obtain ⟨z, g, ⟨hz, hg⟩, hs⟩ := exists_selectee hf (mem_landings.2 ⟨k, hp.target, hk⟩)
    have hmover : t.phraseOf (sel.featureRef y).leaf = points.idxOf z := by
      rw [← phraseOf_eq_idxOf hf hd hps hnodup hmem hz hg, hs]
      rfl
    rw [Tree.operationAt, hmover, number (Tree.getElem?_phrases_host hu) hx]
    exact .move hp hk hz hg hs

theorem forall₂_nodeAt : List.Forall₂ (sel.NodeAt place points.idxOf) points (t.nodes.map (·.rename place)) := by
  rw [List.forall₂_map_right_iff, List.forall₂_iff_get]
  refine ⟨hps.length_eq.trans t.length_nodes.symm, fun i h₁ h₂ => ?_⟩
  have hi : i < t.phrases.length := hps.length_eq ▸ h₁
  have hu : t.phrases[i]? = some t.phrases[i] := List.getElem?_eq_getElem hi
  have hnode := t.getElem?_nodes i
  rw [hu, Option.map_some, List.getElem?_eq_some_iff] at hnode
  obtain ⟨_, hnode⟩ := hnode
  rw [List.get_eq_getElem, List.get_eq_getElem]
  dsimp only
  rw [hnode]
  exact nodeAt_of_builds hf hd hps hnodup hmem hu (hps.get h₁ hi)

end Numbering

end Selection

end MinimalistGrammar
