import MinimalistGrammar.Proofs.Schema.Embedding
import MinimalistGrammar.Proofs.Selection.Derivation

/-!
Selections that differ only in which slots they fill. When one is placed into another with its items and checks,
the two are derivations together, and the same one.
-/

open Relation

namespace MinimalistGrammar

namespace Selection

/-- The items and checks of the one selection are those of the other, at the places of their slots and points. -/
structure Embeds (sel sel' : Selection) (σ : SlotId → SlotId) (φ : PointId → PointId) : Prop where
  schema : sel.schema.Embeds sel'.schema σ φ
  filled : sel.IsFilled
  filled' : sel'.IsFilled
  item?_map : ∀ slot < sel.schema.slotCount, sel'.item? (σ slot) = sel.item? slot
  exists_slot : ∀ slot' item, sel'.item? slot' = some item → ∃ slot < sel.schema.slotCount, σ slot = slot'
  link_map : ∀ x y, (x, y) ∈ sel.links → (φ x, φ y) ∈ sel'.links
  exists_link : ∀ x' y', (x', y') ∈ sel'.links → ∃ x y, (x, y) ∈ sel.links ∧ φ x = x' ∧ φ y = y'

variable {sel sel' : Selection} {σ : SlotId → SlotId} {φ : PointId → PointId} {p q x y : PointId} {f k : Feature}
  {slot : SlotId} {t : Tree} {d : Derivation}

namespace Embeds

section Points

variable (h : sel.Embeds sel' σ φ)
include h

theorem feature?_map (hp : p < sel.schema.pointCount) : sel'.feature? (φ p) = sel.feature? p := by
  rw [feature?, h.schema.slotOf_map hp, h.schema.index_map hp, h.item?_map _ (h.filled.built.slotOf_lt hp), feature?]

theorem carries_map (hp : p < sel.schema.pointCount) : sel'.Carries (φ p) f ↔ sel.Carries p f := by
  rw [Carries, Carries, h.feature?_map hp]
  exact and_congr_left fun _ => iff_of_true (h.schema.map_lt hp) hp

theorem exists_point (hq : sel'.Carries q f) : ∃ p, sel.Carries p f ∧ φ p = q := by
  obtain ⟨hlt, item, hi, hfeature⟩ := carries_iff.1 hq
  obtain ⟨slot, hs, he⟩ := h.exists_slot _ _ hi
  rw [← he, h.item?_map slot hs] at hi
  obtain ⟨p, hp, hc⟩ := h.filled.exists_carries hi hfeature
  have hq' := h.filled'.built.pointAt?_of_lt hlt
  rw [← he, h.schema.pointAt?_eq_some hp, Option.some.injEq] at hq'
  exact ⟨p, hc, hq'⟩

theorem successor_map (hp : sel.Carries p f) (ht : f.polarity.isTrigger = true) :
    sel'.schema.successor (φ p) = (sel.schema.successor p).map φ := by
  obtain ⟨q, _, hs, _⟩ := h.filled.successor_of_isTrigger hp ht
  rw [hs, h.schema.successor_eq_some hp.1 hs, Option.map_some]

theorem mem_links_map (hx : x < sel.schema.pointCount) (hy : y < sel.schema.pointCount) :
    (φ x, φ y) ∈ sel'.links ↔ (x, y) ∈ sel.links := by
  refine ⟨fun hl => ?_, h.link_map x y⟩
  obtain ⟨x', y', hl', hx', hy'⟩ := h.exists_link _ _ hl
  obtain ⟨hltx, hlty⟩ := h.filled.links_lt x' y' hl'
  rwa [(h.schema.map_inj hltx hx).1 hx', (h.schema.map_inj hlty hy).1 hy'] at hl'

theorem isHost_map (hs : slot < sel.schema.slotCount) : sel'.IsHost (σ slot) ↔ sel.IsHost slot := by
  rw [IsHost, IsHost, h.item?_map slot hs]

theorem takesUp_map {host mover : SlotId} (hh : host < sel.schema.slotCount) :
    sel'.TakesUp (σ host) (σ mover) ↔ sel.TakesUp host mover := by
  have hlex := h.filled.built.lexicalPoint_lt hh
  rw [TakesUp, TakesUp, h.isHost_map hh, h.schema.lexicalPoint_eq hh]
  refine and_congr_right fun _ => ⟨?_, ?_⟩
  · rintro ⟨y', hy', hs⟩
    obtain ⟨x, y, hl, hx, rfl⟩ := h.exists_link _ _ hy'
    obtain ⟨hltx, hlty⟩ := h.filled.links_lt x y hl
    rw [(h.schema.map_inj hltx hlex).1 hx] at hl
    rw [h.schema.slotOf_map hlty] at hs
    exact ⟨y, hl, h.schema.injective hs⟩
  · rintro ⟨y, hl, rfl⟩
    exact ⟨φ y, h.link_map _ _ hl, h.schema.slotOf_map (h.filled.links_lt _ _ hl).2⟩

theorem exists_takesUp {host' mover' : SlotId} (ht : sel'.TakesUp host' mover') :
    ∃ host mover, sel.TakesUp host mover ∧ σ host = host' ∧ σ mover = mover' := by
  obtain ⟨⟨item, hi, ha⟩, y', hl, rfl⟩ := ht
  obtain ⟨host, hh, rfl⟩ := h.exists_slot _ _ hi
  obtain ⟨x, y, hxy, _, rfl⟩ := h.exists_link _ _ hl
  refine ⟨host, sel.schema.slotOf y, (h.takesUp_map hh).1 ⟨⟨item, hi, ha⟩, φ y, hl, ?_⟩, rfl, ?_⟩
  · exact h.schema.slotOf_map (h.filled.links_lt _ _ hxy).2
  · exact (h.schema.slotOf_map (h.filled.links_lt _ _ hxy).2).symm

theorem mem_landings_map (hp : p < sel.schema.pointCount) : φ p ∈ sel'.landings ↔ p ∈ sel.landings := by
  simp only [mem_landings, h.carries_map hp]

theorem length_landings : sel'.landings.length = sel.landings.length := by
  have hinj : ∀ p ∈ sel.landings, ∀ q ∈ sel.landings, φ p = φ q → p = q := fun p hp q hq =>
    (h.schema.map_inj (lt_of_mem_landings hp) (lt_of_mem_landings hq)).1
  have hperm : sel'.landings.Perm (sel.landings.map φ) := by
    refine (List.perm_ext_iff_of_nodup nodup_landings (nodup_landings.map_on hinj)).2 fun q => ?_
    rw [List.mem_map]
    constructor
    · intro hq
      obtain ⟨f, hf, hl⟩ := mem_landings.1 hq
      obtain ⟨p, hp, rfl⟩ := h.exists_point hf
      exact ⟨p, mem_landings.2 ⟨f, hp, hl⟩, rfl⟩
    · rintro ⟨p, hp, rfl⟩
      exact (h.mem_landings_map (lt_of_mem_landings hp)).2 hp
  rw [hperm.length_eq, List.length_map]

theorem length_hosts : sel'.hosts.length = sel.hosts.length := by
  have hmem : ∀ {sel : Selection} {slot : SlotId}, sel.IsFilled →
      (slot ∈ sel.hosts.map (·.1) ↔ sel.IsHost slot) := by
    intro sel slot hf
    rw [map_fst_hosts, List.mem_filter, Schema.mem_slotIds, Option.any_eq_true, IsHost]
    refine and_iff_right_of_imp ?_
    rintro ⟨item, hi, _⟩
    exact hf.item_lt hi
  have hnodup : ∀ sel : Selection, (sel.hosts.map (·.1)).Nodup := fun sel => by
    rw [map_fst_hosts]
    exact sel.schema.nodup_slotIds.filter _
  have hperm : (sel'.hosts.map (·.1)).Perm ((sel.hosts.map (·.1)).map σ) := by
    refine (List.perm_ext_iff_of_nodup (hnodup _) ((hnodup _).map h.schema.injective)).2 fun slot' => ?_
    rw [hmem h.filled', List.mem_map]
    simp only [hmem h.filled]
    constructor
    · rintro ⟨item, hi, ha⟩
      obtain ⟨slot, hs, rfl⟩ := h.exists_slot _ _ hi
      exact ⟨slot, (h.isHost_map hs).1 ⟨item, hi, ha⟩, rfl⟩
    · rintro ⟨slot, ⟨item, hi, ha⟩, rfl⟩
      exact (h.isHost_map (h.filled.item_lt hi)).2 ⟨item, hi, ha⟩
  have := hperm.length_eq
  rwa [List.length_map, List.length_map, List.length_map] at this

theorem isMatching (hm : sel.IsMatching) : sel'.IsMatching where
  compatible x' y' hl := by
    obtain ⟨x, y, hxy, rfl, rfl⟩ := h.exists_link _ _ hl
    obtain ⟨hx, hy⟩ := h.filled.links_lt _ _ hxy
    rw [isCompatible, h.feature?_map hx, h.feature?_map hy]
    exact hm.compatible x y hxy
  exists_target p' f hc ht := by
    obtain ⟨p, hp, rfl⟩ := h.exists_point hc
    obtain ⟨y, hy⟩ := hm.exists_target p f hp ht
    exact ⟨φ y, h.link_map _ _ hy⟩
  exists_trigger p' f hc ht := by
    obtain ⟨p, hp, rfl⟩ := h.exists_point hc
    obtain ⟨x, hx⟩ := hm.exists_trigger p f hp ht
    exact ⟨φ x, h.link_map _ _ hx⟩
  target_unique x' y₁ y₂ h₁ h₂ := by
    obtain ⟨x, y, hxy, rfl, rfl⟩ := h.exists_link _ _ h₁
    obtain ⟨z, w, hzw, hz, rfl⟩ := h.exists_link _ _ h₂
    rw [(h.schema.map_inj (h.filled.links_lt _ _ hzw).1 (h.filled.links_lt _ _ hxy).1).1 hz] at hzw
    rw [hm.target_unique x y w hxy hzw]
  trigger_unique x₁ x₂ y' h₁ h₂ := by
    obtain ⟨x, y, hxy, rfl, rfl⟩ := h.exists_link _ _ h₁
    obtain ⟨z, w, hzw, rfl, hw⟩ := h.exists_link _ _ h₂
    rw [(h.schema.map_inj (h.filled.links_lt _ _ hzw).2 (h.filled.links_lt _ _ hxy).2).1 hw] at hzw
    rw [hm.trigger_unique x z y hxy hzw]

theorem isTop_map (hp : p < sel.schema.pointCount) : sel'.IsTop (φ p) ↔ sel.IsTop p := by
  simp only [IsTop, h.carries_map hp]

theorem hasRoot (hr : sel.HasRoot) : sel'.HasRoot := by
  have htop := hr.isTop_root
  obtain ⟨f, hf, _⟩ := id htop
  refine ⟨φ sel.root, (h.isTop_map hf.1).2 htop, fun q' ⟨g, hg, hcat⟩ => ?_⟩
  obtain ⟨q, hq, rfl⟩ := h.exists_point hg
  rw [hr.eq_root ⟨g, hq, hcat⟩]

theorem root_eq (hr : sel.HasRoot) : sel'.root = φ sel.root := by
  have htop := hr.isTop_root
  obtain ⟨f, hf, _⟩ := id htop
  exact ((h.hasRoot hr).eq_root ((h.isTop_map hf.1).2 htop)).symm

end Points

section Matched

variable (h : sel.Embeds sel' σ φ) (hm : sel.IsMatching)
include h hm

theorem partner_map (hp : p < sel.schema.pointCount) : sel'.partner (φ p) = (sel.partner p).map φ := by
  refine Option.ext fun y' => ?_
  rw [(h.isMatching hm).partner_eq_some, Option.map_eq_some_iff]
  simp only [hm.partner_eq_some]
  constructor
  · intro hl
    obtain ⟨x, y, hxy, hx, rfl⟩ := h.exists_link _ _ hl
    rw [(h.schema.map_inj (h.filled.links_lt _ _ hxy).1 hp).1 hx] at hxy
    exact ⟨y, hxy, rfl⟩
  · rintro ⟨y, hy, rfl⟩
    exact h.link_map _ _ hy

theorem checker_map (hp : p < sel.schema.pointCount) : sel'.checker (φ p) = (sel.checker p).map φ := by
  refine Option.ext fun x' => ?_
  rw [(h.isMatching hm).checker_eq_some, Option.map_eq_some_iff]
  simp only [hm.checker_eq_some]
  constructor
  · intro hl
    obtain ⟨x, y, hxy, rfl, hy⟩ := h.exists_link _ _ hl
    rw [(h.schema.map_inj (h.filled.links_lt _ _ hxy).2 hp).1 hy] at hxy
    exact ⟨x, hxy, rfl⟩
  · rintro ⟨x, hx, rfl⟩
    exact h.link_map _ _ hx

theorem bind_checker_map (hp : p < sel.schema.pointCount) :
    (sel'.checker (φ p)).bind sel'.schema.successor = ((sel.checker p).bind sel.schema.successor).map φ := by
  rw [h.checker_map hm hp]
  cases hc : sel.checker p with
  | none => rfl
  | some x =>
    obtain ⟨f, _, hx, _, hck⟩ := hm.carries_of_link h.filled (hm.checker_eq_some.1 hc)
    exact h.successor_map hx (isTrigger_of_checks hck)

theorem parent_map (hp : p < sel.schema.pointCount) : sel'.parent (φ p) = (sel.parent p).map φ := by
  rw [parent, parent, h.feature?_map hp, h.bind_checker_map hm hp]
  cases hfeature : sel.feature? p with
  | none => rfl
  | some f =>
    rw [Option.bind_some, Option.bind_some]
    cases hpol : f.polarity with
    | selector => exact h.successor_map ⟨hp, hfeature⟩ (by rw [hpol]; rfl)
    | licensor => exact h.successor_map ⟨hp, hfeature⟩ (by rw [hpol]; rfl)
    | selectee => rfl
    | licensee => rfl
    | category => rfl

theorem step_map_iff (hp : p < sel.schema.pointCount) {r : PointId} :
    sel'.Step (φ p) r ↔ ∃ q, sel.Step p q ∧ φ q = r := by
  rw [Step, h.parent_map hm hp, Option.map_eq_some_iff]
  exact Iff.rfl

theorem transGen_map_iff (hp : p < sel.schema.pointCount) {r : PointId} :
    TransGen sel'.Step (φ p) r ↔ ∃ q, TransGen sel.Step p q ∧ φ q = r := by
  constructor
  · intro ht
    induction ht with
    | single hs =>
      obtain ⟨q, hq, rfl⟩ := (h.step_map_iff hm hp).1 hs
      exact ⟨q, .single hq, rfl⟩
    | tail _ hs ih =>
      obtain ⟨b, hb, rfl⟩ := ih
      obtain ⟨q, hq, rfl⟩ := (h.step_map_iff hm (transGen_lt h.filled hb)).1 hs
      exact ⟨q, hb.tail hq, rfl⟩
  · rintro ⟨q, hq, rfl⟩
    induction hq with
    | single hs => exact .single ((h.step_map_iff hm hp).2 ⟨_, hs, rfl⟩)
    | tail hb hs ih => exact ih.tail ((h.step_map_iff hm (transGen_lt h.filled hb)).2 ⟨_, hs, rfl⟩)

/-- A point stands above another where it goes just as where it comes from. -/
theorem transGen_map (hp : p < sel.schema.pointCount) (hq : q < sel.schema.pointCount) :
    TransGen sel'.Step (φ p) (φ q) ↔ TransGen sel.Step p q := by
  rw [h.transGen_map_iff hm hp]
  constructor
  · rintro ⟨q', hq', he⟩
    rwa [(h.schema.map_inj (transGen_lt h.filled hq') hq).1 he] at hq'
  · exact fun ht => ⟨q, ht, rfl⟩

theorem isAcyclic (ha : sel.IsAcyclic) : sel'.IsAcyclic := by
  intro p' ht
  have hlt := transGen_lt h.filled' ht
  obtain ⟨q', hq', _⟩ := TransGen.head'_iff.1 ht
  obtain ⟨⟨f, hf, _⟩, _⟩ := (h.isMatching hm).carries_of_step h.filled' hlt hq'
  obtain ⟨p, hp, rfl⟩ := h.exists_point hf
  exact ha p ((h.transGen_map hm hp.1 hp.1).1 ht)

theorem dominates_map (ha : sel.IsAcyclic) (hp : p < sel.schema.pointCount) (hq : q < sel.schema.pointCount) :
    sel'.dominates (φ p) (φ q) = sel.dominates p q := by
  rw [Bool.eq_iff_iff, dominates_iff h.filled' (h.isAcyclic hm ha) (h.schema.map_lt hq), dominates_iff h.filled ha hq,
    h.transGen_map hm hq hp]

theorem isLicensed_map (ha : sel.IsAcyclic) (hp : p < sel.schema.pointCount) :
    sel'.isLicensed (φ p) = sel.isLicensed p := by
  rw [isLicensed, isLicensed, h.schema.predecessor_map hp, h.bind_checker_map hm hp]
  cases hb : sel.schema.predecessor p with
  | none => rfl
  | some base =>
    cases hr : (sel.checker p).bind sel.schema.successor with
    | none => rfl
    | some result =>
      obtain ⟨x, _, hs⟩ := Option.bind_eq_some_iff.1 hr
      exact h.dominates_map hm ha (h.filled.slotOf_successor hs).1
        ((h.filled.built.predecessor_eq_some hp).1 hb).1

end Matched

/-- What a derivation is placed into is a derivation, when its bounds are no tighter. -/
theorem isDerivation (h : sel.Embeds sel' σ φ) (hd : sel.IsDerivation)
    (hmov : sel.schema.bounds.movements ≤ sel'.schema.bounds.movements)
    (hhead : sel.schema.bounds.headMovements ≤ sel'.schema.bounds.headMovements) : sel'.IsDerivation := by
  have hm := h.isMatching hd.toIsMatching
  refine ⟨hm, h.hasRoot hd.hasRoot, h.isAcyclic hd.toIsMatching hd.isAcyclic, fun p' f hf hl => ?_, ?_,
    (isProperMover_iff h.filled' hm).2 fun host' mover' ht hh => ?_, ?_⟩
  · obtain ⟨p, hp, rfl⟩ := h.exists_point hf
    rw [h.isLicensed_map hd.toIsMatching hd.isAcyclic hp.1]
    exact hd.isLicensed p f hp hl
  · rw [h.length_landings]
    exact Nat.le_trans hd.movements hmov
  · obtain ⟨host, mover, hup, rfl, rfl⟩ := h.exists_takesUp ht
    have hlt : mover < sel.schema.slotCount := by
      obtain ⟨_, y, hl, rfl⟩ := hup
      exact h.filled.built.slotOf_lt (h.filled.links_lt _ _ hl).2
    exact (isProperMover_iff h.filled hd.toIsMatching).1 hd.isProperMover host mover hup ((h.isHost_map hlt).1 hh)
  · rw [h.length_hosts]
    exact Nat.le_trans hd.headMovements hhead

theorem featureRef_map (h : sel.Embeds sel' σ φ) (hp : p < sel.schema.pointCount) :
    sel'.featureRef (φ p) = (sel.featureRef p).rename σ := by
  rw [featureRef, h.schema.slotOf_map hp, h.schema.index_map hp]
  rfl

theorem projects_map (h : sel.Embeds sel' σ φ) (hp : sel.Projects p x y f k) :
    sel'.Projects (φ p) (φ x) (φ y) f k where
  trigger := (h.carries_map hp.trigger.1).2 hp.trigger
  target := (h.carries_map hp.target.1).2 hp.target
  checks := hp.checks
  link := h.link_map _ _ hp.link
  successor := h.schema.successor_eq_some hp.trigger.1 hp.successor

theorem builds_map (h : sel.Embeds sel' σ φ) (hb : sel.Builds p t) : sel'.Builds (φ p) (t.relabel σ) := by
  induction hb with
  | @lexical p f hc hn =>
    have hpred : sel'.schema.predecessor (φ p) = none := by rw [h.schema.predecessor_map hc.1, hn, Option.map_none]
    have := Builds.lexical ((h.carries_map hc.1).2 hc) hpred
    rwa [h.schema.slotOf_map hc.1] at this
  | merge hp hk _ _ ihh iha =>
    have := Builds.merge (h.projects_map hp) hk ihh iha
    rwa [h.featureRef_map hp.trigger.1, h.featureRef_map hp.target.1] at this
  | move hp hk _ ih =>
    have := Builds.move (h.projects_map hp) hk ih
    rwa [h.featureRef_map hp.trigger.1, h.featureRef_map hp.target.1] at this

theorem leaf?_map (h : sel.Embeds sel' σ φ) (hs : slot < sel.schema.slotCount) : sel'.leaf? (σ slot) = sel.leaf? slot := by
  have hpos : sel'.schema.slots[σ slot]? >>= (·.position) = sel.schema.slots[slot]? >>= (·.position) := by
    rw [h.schema.built'.position_eq, h.schema.built.position_eq, h.schema.words]
    by_cases hw : slot < sel.schema.words.length
    · rw [if_pos (h.schema.lt_iff.2 hw), if_pos hw, h.schema.overt slot hw]
    · rw [if_neg fun hl => hw (h.schema.lt_iff.1 hl), if_neg hw]
  rw [leaf?, h.item?_map slot hs, hpos, leaf?]

end Embeds

theorem idxOf_map_injective (hσ : Function.Injective σ) (l : List SlotId) (slot : SlotId) :
    (l.map σ).idxOf (σ slot) = l.idxOf slot := by
  rw [List.idxOf, List.findIdx_map]
  congr 1
  funext x
  exact decide_eq_decide.2 hσ.eq_iff

namespace Embeds

variable (h : sel.Embeds sel' σ φ) (hd : sel.IsDerivation) (hd' : sel'.IsDerivation)
include h hd hd'

theorem tree_map (ht : sel.tree = some t) : sel'.tree = some (t.relabel σ) := by
  have hb₁ := hd.builds_root h.filled ht
  obtain ⟨t₂, ht₂, hb₂⟩ := hd'.exists_tree h.filled'
  rw [h.root_eq hd.hasRoot] at hb₂
  rw [ht₂, (h.builds_map hb₁).unique h.filled' hd'.toIsMatching hb₂]

/-- Both have the same derivation. -/
theorem derivation_map (hder : sel.derivation = .ok d) : sel'.derivation = .ok d := by
  obtain ⟨t, ht, hleaves, hd₁⟩ := (derivation_eq_ok h.filled hd).1 hder
  have hb := hd.builds_root h.filled ht
  refine (derivation_eq_ok h.filled' hd').2 ⟨_, h.tree_map hd hd' ht, ?_, ?_⟩
  · rw [Tree.leaves_relabel, List.forall₂_map_left_iff]
    refine ((List.forall₂_and_left _ _).2 ⟨fun slot hs => hs, hleaves⟩).imp fun slot leaf hl => ?_
    obtain ⟨item, hi⟩ := (mem_leaves_root h.filled hd hb).1 hl.1
    rw [h.leaf?_map (h.filled.item_lt hi), hl.2]
  · rw [Tree.relabel_relabel, Tree.leaves_relabel]
    refine hd₁.trans (congrArg (fun f => Derivation.ofTree d.leaves (t.relabel f)) (funext fun slot => ?_))
    exact (idxOf_map_injective h.schema.injective _ _).symm

theorem isInOrder (hw : sel.IsInOrder) : sel'.IsInOrder := by
  obtain ⟨d, hder⟩ := hd.exists_derivation h.filled
  rw [isInOrder_iff_positions h.filled hd hder] at hw
  rw [isInOrder_iff_positions h.filled' hd' (h.derivation_map hd hd' hder), h.schema.words, hw]

end Embeds

end Selection

end MinimalistGrammar
