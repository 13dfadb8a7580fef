import MinimalistGrammar.Proofs.Derivation.Predication
import MinimalistGrammar.Proofs.Selection.Agreement
import MinimalistGrammar.Proofs.Selection.Validity

/-!
Thematic relations, as a demand has them over points and as they are read off a derivation. Both ask what the selectors of
the predicate merge, and those of the head that selects it. A demand wants words below the point that is merged, and these
are the words of the phrase there.
-/

open Relation

namespace MinimalistGrammar

namespace Selection

variable {sel : Selection} {p x y : PointId} {t u u' v : Tree} {d : Derivation} {place : SlotId → LeafId} {points : List PointId}
  {slot predicate : SlotId} {argument : List SlotId} {role : Role} {r : FeatureRef} {l : LeafId} {word : String}
  {q : Predication} {item : Item} {i : Nat}

/-- The selector at one point merges the phrase at another. -/
structure Merges (sel : Selection) (x y : PointId) : Prop where
  exists_selector : ∃ f, sel.Carries x f ∧ f.polarity = .selector
  link : (x, y) ∈ sel.links

/-- The predicate takes the phrase at a point in the role. -/
inductive Takes (sel : Selection) : SlotId → Role → PointId → Prop
  | obj {x y : PointId} : sel.Merges x y → (sel.schema.point x).index = 0 → Takes sel (sel.schema.slotOf x) .obj y
  | iobj {x y : PointId} : sel.Merges x y → (sel.schema.point x).index = 1 → Takes sel (sel.schema.slotOf x) .iobj y
  | subj {x z x' y : PointId} : sel.Merges x z → (sel.schema.point x).index = 0 → sel.schema.successor x = some x' →
      sel.Merges x' y → Takes sel (sel.schema.slotOf z) .subj y

theorem Merges.lt (h : sel.Merges x y) : x < sel.schema.pointCount := by
  obtain ⟨_, hx, _⟩ := h.exists_selector
  exact hx.1

section Points

variable (hf : sel.IsFilled) (hm : sel.IsMatching)
include hf hm

theorem merges_iff : sel.Merges x y ↔ ∃ p f k, sel.Projects p x y f k ∧ k.polarity ≠ .licensee := by
  constructor
  · rintro ⟨⟨g, hg, hsel⟩, hl⟩
    obtain ⟨p, f, k, hp⟩ := exists_projects_of_link hf hm hl
    refine ⟨p, f, k, hp, fun hk => ?_⟩
    have hpol := (licensor_iff_of_checks hp.checks).2 hk
    rw [hp.trigger.unique hg, hsel] at hpol
    cases hpol
  · rintro ⟨p, f, k, hp, hk⟩
    have ht := isTrigger_of_checks hp.checks
    have hl := (licensor_iff_of_checks hp.checks).not.2 hk
    refine ⟨⟨f, hp.trigger, ?_⟩, hp.link⟩
    cases hpol : f.polarity <;> simp_all [Polarity.isTrigger]

theorem merges_of_index_zero (hl : (x, y) ∈ sel.links) (hi : (sel.schema.point x).index = 0) : sel.Merges x y := by
  obtain ⟨p, f, k, hp⟩ := exists_projects_of_link hf hm hl
  refine (merges_iff hf hm).2 ⟨p, f, k, hp, fun hk => ?_⟩
  obtain ⟨_, item, _, hfeature⟩ := carries_iff.1 hp.trigger
  rw [hi] at hfeature
  exact Item.ne_licensor_zero hfeature ((licensor_iff_of_checks hp.checks).2 hk)

theorem Merges.slotOf_ne (ha : sel.IsAcyclic) (h : sel.Merges x y) : sel.schema.slotOf x ≠ sel.schema.slotOf y := by
  obtain ⟨p, f, k, hp, hk⟩ := (merges_iff hf hm).1 h
  have hk := Polarity.eq_selectee_of_isTarget (isTarget_of_checks hp.checks) hk
  obtain ⟨_, hslot, _⟩ := hf.slotOf_successor hp.successor
  intro he
  have hs : sel.schema.slotOf p = sel.schema.slotOf y := hslot.trans he
  obtain ⟨g, hg, hgl⟩ := hp.carries hf
  -- the projection would stand below what it merges
  rcases Nat.lt_or_eq_of_le (index_le_of_selectee hp.target hk ⟨g, hg, hgl⟩ hs) with hi | hi
  · have hbelow := transGen_of_index_lt hf hg ⟨k, hp.target, by rw [hk]; decide⟩ hs hi
    exact ha p (hbelow.tail (hp.step_target hm))
  · obtain rfl := hf.built.point_eq hg.1 hp.target.1 hs hi
    exact ha p (.single (hp.step_target hm))

theorem selectsArgument_iff :
    sel.selectsArgument argument x = true ↔ ∃ y, sel.Merges x y ∧ sel.spans argument y = true := by
  simp only [selectsArgument, selects, Bool.and_eq_true, Option.any_eq_true, hm.partner_eq_some, decide_eq_true_eq]
  constructor
  · rintro ⟨⟨f, hx, hsel⟩, y, hl, hspans⟩
    exact ⟨y, ⟨⟨f, ⟨(hf.links_lt _ _ hl).1, hx⟩, hsel⟩, hl⟩, hspans⟩
  · rintro ⟨y, ⟨⟨f, hx, hsel⟩, hl⟩, hspans⟩
    exact ⟨⟨f, hx.2, hsel⟩, y, hl, hspans⟩

theorem any_selectsArgument_iff : (sel.schema.pointAt? predicate i).any (sel.selectsArgument argument) = true ↔
    ∃ x y, (sel.schema.slotOf x = predicate ∧ (sel.schema.point x).index = i) ∧ sel.Merges x y ∧
      sel.spans argument y = true := by
  simp only [Option.any_eq_true, selectsArgument_iff hf hm, hf.built.pointAt?_eq_some]
  constructor
  · rintro ⟨x, ⟨_, hpoint⟩, y, h⟩
    exact ⟨x, y, ⟨by rw [Schema.slotOf, hpoint], by rw [hpoint]⟩, h⟩
  · rintro ⟨x, y, ⟨rfl, rfl⟩, h⟩
    exact ⟨x, ⟨h.1.lt, rfl⟩, y, h⟩

/-- A demand for a thematic relation is met when the predicate takes a phrase in the role that spans the argument. -/
theorem meets_theta_iff (ha : sel.IsAcyclic) : sel.meets (.theta predicate role argument) = true ↔
    ∃ y, sel.Takes predicate role y ∧ sel.spans argument y = true := by
  cases role with
  | obj =>
    rw [meets, any_selectsArgument_iff hf hm]
    constructor
    · rintro ⟨x, y, ⟨rfl, hi⟩, hxy, hspans⟩
      exact ⟨y, .obj hxy hi, hspans⟩
    · rintro ⟨y, ht, hspans⟩
      cases ht with
      | obj hxy hi => exact ⟨_, y, ⟨rfl, hi⟩, hxy, hspans⟩
  | iobj =>
    rw [meets, any_selectsArgument_iff hf hm]
    constructor
    · rintro ⟨x, y, ⟨rfl, hi⟩, hxy, hspans⟩
      exact ⟨y, .iobj hxy hi, hspans⟩
    · rintro ⟨y, ht, hspans⟩
      cases ht with
      | iobj hxy hi => exact ⟨_, y, ⟨rfl, hi⟩, hxy, hspans⟩
  | subj =>
    simp only [meets, List.any_eq_true, List.mem_filterMap, lexicalCheckers, List.mem_filter, hm.checker_eq_some,
      hf.built.mem_pointsAt, Point.isLexical, Bool.and_eq_true, decide_eq_true_eq, bne_iff_ne, selectsArgument_iff hf hm]
    constructor
    · rintro ⟨x', ⟨x, ⟨⟨z, ⟨_, rfl⟩, hl⟩, hi, _⟩, hsucc⟩, y, hxy, hspans⟩
      exact ⟨y, .subj (merges_of_index_zero hf hm hl hi) hi hsucc hxy, hspans⟩
    · rintro ⟨y, ht, hspans⟩
      cases ht with
      | @subj x z x' _ hxz hi hsucc hxy =>
        have hz := (hf.links_lt _ _ hxz.link).2
        exact ⟨x', ⟨x, ⟨⟨z, ⟨hz, rfl⟩, hxz.link⟩, hi, hxz.slotOf_ne hf hm ha⟩, hsucc⟩, y, hxy, hspans⟩

theorem Takes.exists_item (h : sel.Takes slot role y) : ∃ item, sel.item? slot = some item := by
  cases h with
  | obj hxy _ | iobj hxy _ =>
    obtain ⟨_, hx, _⟩ := hxy.exists_selector
    exact hx.exists_item
  | subj hxz _ _ _ =>
    obtain ⟨_, _, _, hp, _⟩ := (merges_iff hf hm).1 hxz
    exact hp.target.exists_item

omit hm in
theorem Merges.exists_builds (hd : sel.IsDerivation) (h : sel.Merges x y) : ∃ v, sel.Builds y v := by
  obtain ⟨_, _, k, hp, hk⟩ := (merges_iff hf hd.toIsMatching).1 h
  obtain ⟨v, hv⟩ := exists_treeAt hf hd.toIsMatching hd.isAcyclic hp.target hk (Nat.le_add_right sel.schema.pointCount _)
  exact ⟨v, builds_of_treeAt hf hd.toIsMatching hp.target hk hv⟩

omit hm in
theorem Takes.exists_builds (hd : sel.IsDerivation) (h : sel.Takes slot role y) : ∃ v, sel.Builds y v := by
  cases h with
  | obj hxy _ | iobj hxy _ | subj _ _ _ hxy => exact hxy.exists_builds hf hd

/-- The merges in a tree are those whose selectors are inside. -/
theorem Builds.mem_merges (h : sel.Builds p t) : (r, u) ∈ t.merges ↔
    ∃ x y, (sel.Merges x y ∧ sel.Builds y u) ∧ r = sel.featureRef x ∧ TransGen sel.Step x p := by
  -- a selector is no target
  have not_target : ∀ {x y y' k}, sel.Merges x y → sel.Carries y' k → k.polarity.isTarget = true → x ≠ y' := by
    rintro x y y' k ⟨⟨f, hx, hsel⟩, _⟩ hy' hk rfl
    rw [← hx.unique hy', hsel] at hk
    cases hk
  induction h with
  | @lexical p f hc hn =>
    simp only [Tree.merges, List.not_mem_nil, false_iff, not_exists, not_and]
    exact fun x y hxy _ => not_transGen_of_predecessor_none hf hm hn hxy.1.lt
  | @merge p x y f k h a hp hk hh hb ihh iha =>
    rw [Tree.merges, List.mem_cons, List.mem_append]
    refine (or_congr_right (or_congr ihh iha)).trans ?_
    constructor
    · rintro (he | ⟨x', y', hxy, hr, ht⟩ | ⟨x', y', hxy, hr, ht⟩)
      · obtain ⟨rfl, rfl⟩ := Prod.mk.inj he
        exact ⟨x, y, ⟨(merges_iff hf hm).2 ⟨p, f, k, hp, hk⟩, hb⟩, rfl, .single hp.step_trigger⟩
      · exact ⟨x', y', hxy, hr, ht.tail hp.step_trigger⟩
      · exact ⟨x', y', hxy, hr, ht.tail (hp.step_target hm)⟩
    · rintro ⟨x', y', ⟨hxy, hu⟩, rfl, ht⟩
      rcases (hp.transGen_iff hf hm hxy.lt).1 ht with hx | hy
      · rcases reflTransGen_iff_eq_or_transGen.1 hx with rfl | hx
        · obtain rfl := hm.target_unique _ _ _ hp.link hxy.link
          exact .inl (by rw [hu.unique hf hm hb])
        · exact .inr (.inl ⟨x', y', ⟨hxy, hu⟩, rfl, hx⟩)
      · rcases reflTransGen_iff_eq_or_transGen.1 hy with rfl | hy
        · exact absurd rfl (not_target hxy hp.target (isTarget_of_checks hp.checks))
        · exact .inr (.inr ⟨x', y', ⟨hxy, hu⟩, rfl, hy⟩)
  | @move p x y f k h hp hk hh ih =>
    refine Iff.trans ih (exists_congr fun x' => exists_congr fun y' => and_congr_right fun hmerges => and_congr_right fun _ => ?_)
    obtain ⟨hxy, _⟩ := hmerges
    have hx : x' ≠ x := by
      rintro rfl
      obtain ⟨g, hg, hsel⟩ := hxy.exists_selector
      rw [hg.unique hp.trigger, (licensor_iff_of_checks hp.checks).2 hk] at hsel
      cases hsel
    have hy := not_target hxy hp.target (isTarget_of_checks hp.checks)
    have hty := not_transGen_of_licensee hf hm hp.target hk hxy.lt
    rw [hp.transGen_iff hf hm hxy.lt, reflTransGen_iff_eq_or_transGen, reflTransGen_iff_eq_or_transGen]
    grind

end Points

namespace Numbered

variable (hf : sel.IsFilled) (hd : sel.IsDerivation) (h : sel.Numbered d place points)

include hf h in
theorem form_eq (hi : sel.item? slot = some item) :
    (d.leaf? (place slot)).bind (·.form) = sel.schema.words[slot]? := by
  obtain ⟨leaf, hleaf⟩ := leaf?_eq_some hi
  rw [h.leaf? slot item hi, hleaf, Option.bind_some, (leaf?_spec hf hleaf).1]

include hf hd h in
theorem mem_wordsOf (hb : sel.Builds y v) : word ∈ d.wordsOf (v.relabel place) ↔
    ∃ slot, sel.schema.words[slot]? = some word ∧ ReflTransGen sel.Step (sel.schema.lexicalPoint slot) y := by
  have hleaves : ∀ {slot}, slot ∈ v.leaves ↔ _ := hb.mem_leaves hf hd.toIsMatching
  rw [Derivation.mem_wordsOf, Tree.leaves_relabel]
  constructor
  · rintro ⟨_, hl, leaf, hleaf, _, hform⟩
    obtain ⟨slot, hs, rfl⟩ := List.mem_map.1 hl
    obtain ⟨⟨item, hi⟩, hbelow⟩ := hleaves.1 hs
    refine ⟨slot, ?_, hbelow⟩
    rw [← h.form_eq hf hi, hleaf, Option.bind_some, hform]
  · rintro ⟨slot, hw, hbelow⟩
    obtain ⟨hlt, _⟩ := List.getElem?_eq_some_iff.1 hw
    obtain ⟨item, hi⟩ := hf.words slot hlt
    obtain ⟨leaf, hleaf⟩ := leaf?_eq_some hi
    obtain ⟨hform, hposition⟩ := leaf?_spec hf hleaf
    refine ⟨place slot, List.mem_map_of_mem (hleaves.2 ⟨⟨item, hi⟩, hbelow⟩), leaf, ?_, ?_, hform.trans hw⟩
    · rw [h.leaf? slot item hi, hleaf]
    · rw [hposition, if_pos hlt]
      rfl

include hf hd h

theorem mem_merges : (r, u) ∈ d.tree.merges ↔ ∃ x y v, (sel.Merges x y ∧ sel.Builds y v) ∧
    r = (sel.featureRef x).rename place ∧ u = v.relabel place := by
  obtain ⟨t, ht, hb⟩ := hd.exists_tree hf
  rw [h.tree t ht, Tree.merges_relabel, List.mem_map]
  constructor
  · rintro ⟨⟨r', v⟩, hmem, he⟩
    obtain ⟨x, y, hxy, rfl, _⟩ := (hb.mem_merges hf hd.toIsMatching).1 hmem
    obtain ⟨rfl, rfl⟩ := Prod.mk.inj he
    exact ⟨x, y, v, hxy, rfl, rfl⟩
  · rintro ⟨x, y, v, hxy, rfl, rfl⟩
    obtain ⟨f, hx, hsel⟩ := hxy.1.exists_selector
    refine ⟨(sel.featureRef x, v), (hb.mem_merges hf hd.toIsMatching).2 ⟨x, y, hxy, rfl, ?_⟩, rfl⟩
    exact transGen_root hf hd hx (by rw [hsel]; decide)

theorem merges_unique (hu : (r, u) ∈ d.tree.merges) (hu' : (r, u') ∈ d.tree.merges) : u = u' := by
  obtain ⟨x, y, v, ⟨hxy, hv⟩, rfl, rfl⟩ := (h.mem_merges hf hd).1 hu
  obtain ⟨x', y', v', ⟨hxy', hv'⟩, he, rfl⟩ := (h.mem_merges hf hd).1 hu'
  obtain rfl := featureRef_injective hf hxy.lt hxy'.lt (FeatureRef.rename_injective h.injective he)
  obtain rfl := hd.toIsMatching.target_unique _ _ _ hxy.link hxy'.link
  rw [hv.unique hf hd.toIsMatching hv']

theorem takes_iff : d.Takes l role u ↔ ∃ slot y v, (sel.Takes slot role y ∧ sel.Builds y v) ∧ l = place slot ∧
    u = v.relabel place := by
  have hmerges : ∀ {r u}, (r, u) ∈ d.tree.merges ↔ _ := h.mem_merges hf hd
  constructor
  · intro ht
    cases ht with
    | obj hu =>
      obtain ⟨x, y, v, ⟨hxy, hv⟩, he, rfl⟩ := hmerges.1 hu
      obtain ⟨rfl, hi⟩ := FeatureRef.mk.inj he
      exact ⟨_, y, v, ⟨.obj hxy hi.symm, hv⟩, rfl, rfl⟩
    | iobj hu =>
      obtain ⟨x, y, v, ⟨hxy, hv⟩, he, rfl⟩ := hmerges.1 hu
      obtain ⟨rfl, hi⟩ := FeatureRef.mk.inj he
      exact ⟨_, y, v, ⟨.iobj hxy hi.symm, hv⟩, rfl, rfl⟩
    -- the two selectors are neighbours, so one is the other's successor
    | subj hw hu =>
      obtain ⟨x, z, w, ⟨hxz, hbw⟩, he, rfl⟩ := hmerges.1 hw
      obtain ⟨x', y, v, ⟨hxy, hv⟩, he', rfl⟩ := hmerges.1 hu
      obtain ⟨rfl, hi⟩ := FeatureRef.mk.inj he
      obtain ⟨hs, hi'⟩ := FeatureRef.mk.inj he'
      have hindex : (sel.schema.point x').index = (sel.schema.point x).index + 1 := hi'.symm.trans (congrArg (· + 1) hi)
      have hsucc := hf.built.successor_eq_some.2 ⟨hxy.lt, congrArg₂ Point.mk (h.injective hs).symm hindex⟩
      refine ⟨_, y, v, ⟨.subj hxz hi.symm hsucc hxy, hv⟩, ?_, rfl⟩
      rw [Tree.head_relabel, hbw.head_eq hf]
  · rintro ⟨slot, y, v, ⟨ht, hv⟩, rfl, rfl⟩
    cases ht with
    | @obj x _ hxy hi => exact .obj (hmerges.2 ⟨x, y, v, ⟨hxy, hv⟩, by rw [← hi]; rfl, rfl⟩)
    | @iobj x _ hxy hi => exact .iobj (hmerges.2 ⟨x, y, v, ⟨hxy, hv⟩, by rw [← hi]; rfl, rfl⟩)
    | @subj x z x' _ hxz hi hsucc hxy =>
      obtain ⟨w, hw⟩ := hxz.exists_builds hf hd
      obtain ⟨_, hs, hi'⟩ := hf.slotOf_successor hsucc
      have hfirst := hmerges.2 ⟨x, z, w, ⟨hxz, hw⟩, rfl, rfl⟩
      have hsecond := hmerges.2 ⟨x', y, v, ⟨hxy, hv⟩, rfl, rfl⟩
      rw [FeatureRef.rename, featureRef, hi] at hfirst
      rw [FeatureRef.rename, featureRef, hs, hi', hi] at hsecond
      rw [← hw.head_eq hf, ← Tree.head_relabel place w]
      exact .subj hfirst hsecond

theorem mem_predications : q ∈ d.predications ↔ ∃ slot y v, (sel.Takes slot q.role y ∧ sel.Builds y v) ∧
    sel.schema.words[slot]? = some q.predicate ∧ q.argument = d.wordsOf (v.relabel place) := by
  rw [Derivation.mem_predications fun _ _ _ => h.merges_unique hf hd]
  simp only [h.takes_iff hf hd, Derivation.predication?_eq_some, true_and]
  constructor
  · rintro ⟨_, _, ⟨slot, y, v, ⟨ht, hv⟩, rfl, rfl⟩, hform, hargument⟩
    obtain ⟨item, hi⟩ := ht.exists_item hf hd.toIsMatching
    exact ⟨slot, y, v, ⟨ht, hv⟩, h.form_eq hf hi ▸ hform, hargument⟩
  · rintro ⟨slot, y, v, ⟨ht, hv⟩, hform, hargument⟩
    obtain ⟨item, hi⟩ := ht.exists_item hf hd.toIsMatching
    exact ⟨_, _, ⟨slot, y, v, ⟨ht, hv⟩, rfl, rfl⟩, (h.form_eq hf hi).trans hform, hargument⟩

end Numbered

/-- A thematic relation that is demanded of the slots of some words can be read off the derivation. -/
theorem says_of_meets {name : String} {words : List String} (hf : sel.IsFilled) (hd : sel.IsDerivation)
    (hder : sel.derivation = .ok d) (h : sel.meets (.theta predicate role argument) = true)
    (hname : sel.schema.words[predicate]? = some name)
    (hwords : ∀ word ∈ words, ∃ slot ∈ argument, sel.schema.words[slot]? = some word) : d.Says name role words := by
  obtain ⟨y, ht, hspans⟩ := (meets_theta_iff hf hd.toIsMatching hd.isAcyclic).1 h
  obtain ⟨v, hv⟩ := ht.exists_builds hf hd
  obtain ⟨place, points, hn⟩ := hd.exists_numbered hf hder
  refine ⟨⟨name, role, d.wordsOf (v.relabel place)⟩, (hn.mem_predications hf hd).2 ⟨predicate, y, v, ⟨ht, hv⟩, hname, rfl⟩,
    ⟨rfl, rfl⟩, fun word hword => ?_⟩
  obtain ⟨slot, hslot, hw⟩ := hwords word hword
  refine (hn.mem_wordsOf hf hd hv).2 ⟨slot, hw, ?_⟩
  obtain ⟨hlt, _⟩ := List.getElem?_eq_some_iff.1 hw
  have hlex := hf.built.lexicalPoint_lt (Nat.lt_of_lt_of_le hlt hf.built.words_le_slotCount)
  rcases (spans_iff.1 hspans).2 slot hslot with rfl | hbelow
  · exact ((hv.mem_leaves hf hd.toIsMatching).1 (hv.head_eq hf ▸ v.head_mem_leaves)).2
  · exact ((dominates_iff hf hd.isAcyclic hlex).1 hbelow).to_reflTransGen

end Selection

end MinimalistGrammar
