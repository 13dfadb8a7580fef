import MinimalistGrammar.Proofs.Selection.Dominance

/-!
What it means that all checks of a selection pass.
-/

namespace MinimalistGrammar

theorem Inconsistency.unless_eq_ok {e : Inconsistency} {b : Bool} : e.unless b = .ok () ↔ b = true := by
  cases b <;> simp [Inconsistency.unless]

theorem Inconsistency.withinBound_eq_ok {bound : String} {limit used : Nat} :
    Inconsistency.withinBound bound limit used = .ok () ↔ used ≤ limit := by
  rw [Inconsistency.withinBound, Inconsistency.unless_eq_ok, decide_eq_true_iff]

theorem countP_eq_one_iff {α : Type} {l : List α} {P : α → Bool} (h : l.Nodup) :
    l.countP P = 1 ↔ ∃ x, (x ∈ l ∧ P x = true) ∧ ∀ y, y ∈ l → P y = true → y = x := by
  rw [List.countP_eq_length_filter, List.length_eq_one_iff]
  constructor
  · rintro ⟨x, hx⟩
    refine ⟨x, List.mem_filter.1 (by simp [hx]), fun y hy hp => ?_⟩
    simpa [hx] using List.mem_filter.2 ⟨hy, hp⟩
  · rintro ⟨x, hx, hu⟩
    refine ⟨x, List.perm_singleton.1 ((List.perm_ext_iff_of_nodup (h.filter _) (by simp)).2 fun y => ?_)⟩
    rw [List.mem_filter, List.mem_singleton]
    exact ⟨fun hy => hu y hy.1 hy.2, fun he => he ▸ hx⟩

namespace Selection

variable {sel : Selection}

/-- The features match one to one and form one tree. -/
structure IsTree (sel : Selection) : Prop extends sel.IsMatching where
  hasRoot : sel.HasRoot
  isAcyclic : sel.IsAcyclic

/-- The features match one to one and form one tree, every movement goes up, every host takes up a head that is
no host itself, and there are no more movements of either kind than the bounds allow. -/
structure IsDerivation (sel : Selection) : Prop extends sel.IsMatching where
  hasRoot : sel.HasRoot
  isAcyclic : sel.IsAcyclic
  isLicensed : ∀ p f, sel.Carries p f → f.polarity = .licensee → sel.isLicensed p = true
  movements : sel.landings.length ≤ sel.schema.bounds.movements
  isProperMover : ∀ host mover, (host, mover) ∈ sel.hosts → sel.isProperMover mover = true
  headMovements : sel.hosts.length ≤ sel.schema.bounds.headMovements

theorem IsDerivation.isTree (h : sel.IsDerivation) : sel.IsTree := ⟨h.toIsMatching, h.hasRoot, h.isAcyclic⟩

theorem mem_landings {p : PointId} :
    p ∈ sel.landings ↔ ∃ f, sel.Carries p f ∧ f.polarity = .licensee := by
  simp only [landings, List.mem_map, List.mem_filter, Prod.exists, mem_active, decide_eq_true_eq]
  constructor
  · rintro ⟨q, f, ⟨hc, hf⟩, rfl⟩
    exact ⟨f, hc, hf⟩
  · rintro ⟨f, hc, hf⟩
    exact ⟨p, f, ⟨hc, hf⟩, rfl⟩

theorem lt_of_mem_landings {p : PointId} (h : p ∈ sel.landings) : p < sel.schema.pointCount := by
  obtain ⟨_, hg, _⟩ := mem_landings.1 h
  exact hg.1

theorem nodup_landings : sel.landings.Nodup := nodup_active.sublist (List.filter_sublist.map _)

theorem checkLinks_eq_ok :
    sel.checkLinks = .ok () ↔ ∀ x y, (x, y) ∈ sel.links → sel.isCompatible x y = true := by
  simp only [checkLinks, Fallible.forM_eq_ok, Inconsistency.unless_eq_ok, Prod.forall]

theorem checkRoot_eq_ok : sel.checkRoot = .ok () ↔ sel.HasRoot := by
  rw [checkRoot, Inconsistency.unless_eq_ok, decide_eq_true_iff, hasRoot_iff]

theorem checkConnected_eq_ok : sel.checkConnected = .ok () ↔ sel.IsConnected := by
  simp only [checkConnected, Fallible.forM_eq_ok, Inconsistency.unless_eq_ok, Prod.forall, mem_active,
    Bool.or_eq_true, decide_eq_true_eq, IsConnected]

theorem checkMovement_eq_ok : sel.checkMovement = .ok () ↔
    (∀ p f, sel.Carries p f → f.polarity = .licensee → sel.isLicensed p = true) ∧
      sel.landings.length ≤ sel.schema.bounds.movements := by
  simp only [checkMovement, Fallible.seq_eq_ok, Fallible.forM_eq_ok, Inconsistency.unless_eq_ok,
    Inconsistency.withinBound_eq_ok, mem_landings]
  exact and_congr_left fun _ => ⟨fun h p f hc hl => h p ⟨f, hc, hl⟩, fun h p ⟨f, hc, hl⟩ => h p f hc hl⟩

theorem checkHeadMovement_eq_ok : sel.checkHeadMovement = .ok () ↔
    (∀ host mover, (host, mover) ∈ sel.hosts → sel.isProperMover mover = true) ∧
      sel.hosts.length ≤ sel.schema.bounds.headMovements := by
  simp only [checkHeadMovement, Fallible.seq_eq_ok, Fallible.forM_eq_ok, Inconsistency.unless_eq_ok,
    Inconsistency.withinBound_eq_ok, Prod.forall]

theorem checkFeatures_eq_ok : sel.checkFeatures = .ok () ↔ ∀ p f, sel.Carries p f →
    sel.checkCount p = (if f.polarity = .category then 0 else 1) ∧
      (f.polarity = .category ∨ (sel.parent p).isSome = true) := by
  simp only [checkFeatures, checkFeature, Fallible.seq_eq_ok, Fallible.forM_eq_ok,
    Inconsistency.unless_eq_ok, Bool.or_eq_true, decide_eq_true_eq, Prod.forall, mem_active]

theorem IsFilled.checkEmptyItems_eq_ok (hf : sel.IsFilled) : sel.checkEmptyItems = .ok () := by
  rw [checkEmptyItems, Inconsistency.withinBound_eq_ok]
  have hcount := hf.built.slotCount_eq
  have hlen : sel.schema.covertSlots.length ≤ sel.schema.bounds.emptyItems := by
    rw [Schema.covertSlots, List.length_range', hcount, Nat.add_sub_cancel_left, Schema.covertCount]
    split
    · exact Nat.zero_le _
    · exact Nat.le_refl _
  exact Nat.le_trans List.countP_le_length hlen

section Checks

variable (hf : sel.IsFilled) {p : PointId} {f : Feature}
include hf

theorem countP_trigger_eq_one :
    sel.links.countP (·.1 = p) = 1 ↔ ∃ y, (p, y) ∈ sel.links ∧ ∀ y', (p, y') ∈ sel.links → y' = y := by
  rw [countP_eq_one_iff hf.links_nodup]
  constructor
  · rintro ⟨⟨x, y⟩, ⟨hl, hx⟩, hu⟩
    obtain rfl : x = p := by simpa using hx
    exact ⟨y, hl, fun y' hy' => congrArg Prod.snd (hu (x, y') hy' (by simp))⟩
  · rintro ⟨y, hl, hu⟩
    refine ⟨(p, y), ⟨hl, by simp⟩, fun ⟨x', y'⟩ hl' hx' => ?_⟩
    obtain rfl : x' = p := by simpa using hx'
    rw [hu y' hl']

theorem countP_target_eq_one :
    sel.links.countP (·.2 = p) = 1 ↔ ∃ x, (x, p) ∈ sel.links ∧ ∀ x', (x', p) ∈ sel.links → x' = x := by
  rw [countP_eq_one_iff hf.links_nodup]
  constructor
  · rintro ⟨⟨x, y⟩, ⟨hl, hy⟩, hu⟩
    obtain rfl : y = p := by simpa using hy
    exact ⟨x, hl, fun x' hx' => congrArg Prod.fst (hu (x', y) hx' (by simp))⟩
  · rintro ⟨x, hl, hu⟩
    refine ⟨(x, p), ⟨hl, by simp⟩, fun ⟨x', y'⟩ hl' hy' => ?_⟩
    obtain rfl : y' = p := by simpa using hy'
    rw [hu x' hl']

omit hf in
theorem countP_trigger_eq_zero (hl : ∀ x y, (x, y) ∈ sel.links → sel.isCompatible x y = true)
    (hc : sel.Carries p f) (ht : f.polarity.isTrigger = false) : sel.links.countP (·.1 = p) = 0 := by
  rw [List.countP_eq_zero]
  rintro ⟨x, y⟩ hlink hx
  obtain rfl : x = p := by simpa using hx
  obtain ⟨f', g, hf', _, hck⟩ := checks_of_isCompatible (hl x y hlink)
  have := isTrigger_of_checks hck
  rw [Option.some.inj (hf'.symm.trans hc.2), ht] at this
  cases this

omit hf in
theorem countP_target_eq_zero (hl : ∀ x y, (x, y) ∈ sel.links → sel.isCompatible x y = true)
    (hc : sel.Carries p f) (ht : f.polarity.isTarget = false) : sel.links.countP (·.2 = p) = 0 := by
  rw [List.countP_eq_zero]
  rintro ⟨x, y⟩ hlink hy
  obtain rfl : y = p := by simpa using hy
  obtain ⟨f', g, _, hg, hck⟩ := checks_of_isCompatible (hl x y hlink)
  have := isTarget_of_checks hck
  rw [Option.some.inj (hg.symm.trans hc.2), ht] at this
  cases this

theorem isMatching_of_checks (hl : ∀ x y, (x, y) ∈ sel.links → sel.isCompatible x y = true)
    (hc : ∀ p f, sel.Carries p f → f.polarity ≠ .category → sel.checkCount p = 1) : sel.IsMatching := by
  have trigger : ∀ p f, sel.Carries p f → f.polarity.isTrigger = true →
      ∃ y, (p, y) ∈ sel.links ∧ ∀ y', (p, y') ∈ sel.links → y' = y := by
    intro p f hp ht
    have hcount := hc p f hp (Polarity.ne_category_of_isTrigger ht)
    have hz := countP_target_eq_zero hl hp (Polarity.isTarget_of_isTrigger ht)
    rw [checkCount, hz, Nat.add_zero] at hcount
    exact (countP_trigger_eq_one hf).1 hcount
  have target : ∀ p f, sel.Carries p f → f.polarity.isTarget = true →
      ∃ x, (x, p) ∈ sel.links ∧ ∀ x', (x', p) ∈ sel.links → x' = x := by
    intro p f hp ht
    have hcount := hc p f hp (Polarity.ne_category_of_isTarget ht)
    have hz := countP_trigger_eq_zero hl hp (Polarity.isTrigger_of_isTarget ht)
    rw [checkCount, hz, Nat.zero_add] at hcount
    exact (countP_target_eq_one hf).1 hcount
  refine ⟨hl, fun p f hp ht => ?_, fun p f hp ht => ?_, fun x y y' h h' => ?_, fun x x' y h h' => ?_⟩
  · obtain ⟨y, hy, _⟩ := trigger p f hp ht
    exact ⟨y, hy⟩
  · obtain ⟨x, hx, _⟩ := target p f hp ht
    exact ⟨x, hx⟩
  · obtain ⟨f, g, hx, _, hck⟩ := checks_of_isCompatible (hl x y h)
    obtain ⟨_, _, hu⟩ := trigger x f ⟨(hf.links_lt x y h).1, hx⟩ (isTrigger_of_checks hck)
    rw [hu y h, hu y' h']
  · obtain ⟨f, g, _, hy, hck⟩ := checks_of_isCompatible (hl x y h)
    obtain ⟨_, _, hu⟩ := target y g ⟨(hf.links_lt x y h).2, hy⟩ (isTarget_of_checks hck)
    rw [hu x h, hu x' h']

theorem IsMatching.checkCount_eq (hm : sel.IsMatching) (hc : sel.Carries p f) :
    sel.checkCount p = (if f.polarity = .category then 0 else 1) := by
  have ht := countP_trigger_eq_zero hm.compatible hc
  have hg := countP_target_eq_zero hm.compatible hc
  have trigger : f.polarity.isTrigger = true → sel.links.countP (·.1 = p) = 1 := by
    intro h
    obtain ⟨y, hy⟩ := hm.exists_target p f hc h
    exact (countP_trigger_eq_one hf).2 ⟨y, hy, fun y' hy' => hm.target_unique p y' y hy' hy⟩
  have target : f.polarity.isTarget = true → sel.links.countP (·.2 = p) = 1 := by
    intro h
    obtain ⟨x, hx⟩ := hm.exists_trigger p f hc h
    exact (countP_target_eq_one hf).2 ⟨x, hx, fun x' hx' => hm.trigger_unique x' x p hx' hx⟩
  rw [checkCount]
  cases hp : f.polarity <;> rw [hp] at ht hg trigger target
  · rw [trigger rfl, hg rfl]
    rfl
  · rw [ht rfl, target rfl]
    rfl
  · rw [trigger rfl, hg rfl]
    rfl
  · rw [ht rfl, target rfl]
    rfl
  · rw [ht rfl, hg rfl]
    rfl

/-- The checks pass exactly for derivations. -/
theorem check_eq_ok_iff : sel.check = .ok () ↔ sel.IsDerivation := by
  simp only [check, Fallible.seq_eq_ok, hf.checkEmptyItems_eq_ok, true_and, checkLinks_eq_ok,
    checkFeatures_eq_ok, checkRoot_eq_ok, checkConnected_eq_ok, checkMovement_eq_ok, checkHeadMovement_eq_ok]
  constructor
  · rintro ⟨hl, hc, hr, hcon, ⟨hlic, hmov⟩, hprop, hhead⟩
    have hm : sel.IsMatching := isMatching_of_checks hf hl fun p f hp hcat => by
      rw [(hc p f hp).1, if_neg hcat]
    exact ⟨hm, hr, hcon.isAcyclic hf hm hr, hlic, hmov, hprop, hhead⟩
  · intro h
    refine ⟨h.compatible, fun p f hp => ⟨h.toIsMatching.checkCount_eq hf hp, ?_⟩, h.hasRoot,
      h.isAcyclic.isConnected hf h.toIsMatching h.hasRoot, ⟨h.isLicensed, h.movements⟩, h.isProperMover,
      h.headMovements⟩
    by_cases hcat : f.polarity = .category
    · exact .inl hcat
    · obtain ⟨q, hq⟩ := h.toIsMatching.exists_step hf hp hcat
      exact .inr (Option.isSome_iff_exists.2 ⟨q, hq⟩)

end Checks

end Selection

end MinimalistGrammar
