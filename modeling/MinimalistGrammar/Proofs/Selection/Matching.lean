import MinimalistGrammar.Proofs.Selection.Basic

/-!
Checks that match triggers and targets one to one. Each point then has at most one place above it.
-/

namespace MinimalistGrammar

namespace Selection

variable {sel : Selection}

/-- Every check is of matching features, every trigger checks one target, and every target is checked once. -/
structure IsMatching (sel : Selection) : Prop where
  compatible : ∀ x y, (x, y) ∈ sel.links → sel.isCompatible x y = true
  exists_target : ∀ p f, sel.Carries p f → f.polarity.isTrigger = true → ∃ y, (p, y) ∈ sel.links
  exists_trigger : ∀ p f, sel.Carries p f → f.polarity.isTarget = true → ∃ x, (x, p) ∈ sel.links
  target_unique : ∀ x y y', (x, y) ∈ sel.links → (x, y') ∈ sel.links → y = y'
  trigger_unique : ∀ x x' y, (x, y) ∈ sel.links → (x', y) ∈ sel.links → x = x'

theorem checks_of_isCompatible {x y : PointId} (h : sel.isCompatible x y = true) :
    ∃ f g, sel.feature? x = some f ∧ sel.feature? y = some g ∧ f.checks g = true := by
  unfold isCompatible at h
  split at h
  · rename_i f g hf hg
    exact ⟨f, g, hf, hg, h⟩
  · cases h

theorem isCompatible_of_checks {x y : PointId} {f g : Feature} (hf : sel.feature? x = some f)
    (hg : sel.feature? y = some g) (h : f.checks g = true) : sel.isCompatible x y = true := by
  rw [isCompatible, hf, hg]
  exact h

theorem isTrigger_of_checks {f g : Feature} (h : f.checks g = true) : f.polarity.isTrigger = true := by
  simp only [Feature.checks, Bool.and_eq_true] at h
  exact h.1.1

theorem isTarget_of_checks {f g : Feature} (h : f.checks g = true) : g.polarity.isTarget = true := by
  simp only [Feature.checks, Bool.and_eq_true, beq_iff_eq] at h
  cases hf : f.polarity <;> simp [hf, Polarity.isTrigger, Polarity.partner] at h <;> rw [← h.1] <;> rfl

theorem licensor_iff_of_checks {f g : Feature} (h : f.checks g = true) :
    f.polarity = .licensor ↔ g.polarity = .licensee := by
  simp only [Feature.checks, Bool.and_eq_true, beq_iff_eq] at h
  cases hf : f.polarity <;> simp [hf, Polarity.isTrigger, Polarity.partner] at h <;> rw [← h.1] <;> simp

/-- The next thing above a point. -/
def Step (sel : Selection) (p q : PointId) : Prop := sel.parent p = some q

theorem Step.unique {p q q' : PointId} (h : sel.Step p q) (h' : sel.Step p q') : q = q' :=
  Option.some.inj (h.symm.trans h')

theorem step_of_isTrigger {p q : PointId} {f : Feature} (h : sel.Carries p f) (ht : f.polarity.isTrigger = true) :
    sel.Step p q ↔ sel.schema.successor p = some q := by
  rw [Step, parent, h.2, Option.bind_some]
  cases hp : f.polarity <;> simp [hp, Polarity.isTrigger] at ht ⊢

theorem mem_links_of_checker {x y : PointId} (h : sel.checker y = some x) : (x, y) ∈ sel.links := by
  obtain ⟨l, hl, rfl⟩ := Option.map_eq_some_iff.1 h
  have hy : l.2 = y := by simpa using List.find?_some hl
  rw [← hy]
  exact List.mem_of_find?_eq_some hl

theorem checker_eq_some_of_unique {x y : PointId} (hu : ∀ x', (x', y) ∈ sel.links → x' = x) (h : (x, y) ∈ sel.links) :
    sel.checker y = some x := by
  obtain ⟨l, hl⟩ : ∃ l, sel.links.find? (·.2 = y) = some l :=
    Option.isSome_iff_exists.1 (List.find?_isSome.2 ⟨(x, y), h, by simp⟩)
  have hc : sel.checker y = some l.1 := by rw [checker, hl, Option.map_some]
  rw [hc, hu _ (mem_links_of_checker hc)]

theorem step_iff_of_isTarget {p q : PointId} {f : Feature} (h : sel.Carries p f) (ht : f.polarity.isTarget = true) :
    sel.Step p q ↔ ∃ x, sel.checker p = some x ∧ sel.schema.successor x = some q := by
  rw [← Option.bind_eq_some_iff, Step, parent, h.2, Option.bind_some]
  cases hp : f.polarity <;> simp [hp, Polarity.isTarget] at ht ⊢

theorem exists_of_step {p q : PointId} (hp : p < sel.schema.pointCount) (h : sel.Step p q) : ∃ f, sel.Carries p f ∧
    ((f.polarity.isTrigger = true ∧ sel.schema.successor p = some q) ∨ f.polarity.isTarget = true ∧
      ∃ x, sel.checker p = some x ∧ sel.schema.successor x = some q) := by
  obtain ⟨f, hff⟩ : ∃ f, sel.feature? p = some f := by
    rw [Step, parent, Option.bind_eq_some_iff] at h
    exact ⟨h.choose, h.choose_spec.1⟩
  have hc : sel.Carries p f := ⟨hp, hff⟩
  refine ⟨f, hc, ?_⟩
  by_cases ht : f.polarity.isTrigger = true
  · exact .inl ⟨ht, (step_of_isTrigger hc ht).1 h⟩
  · by_cases hg : f.polarity.isTarget = true
    · exact .inr ⟨hg, (step_iff_of_isTarget hc hg).1 h⟩
    · rw [Step, parent, hff, Option.bind_some] at h
      cases hpol : f.polarity <;> simp [hpol, Polarity.isTarget, Polarity.isTrigger] at ht hg h

namespace IsMatching

variable (hf : sel.IsFilled) (hm : sel.IsMatching) {x y p q : PointId} {f g : Feature}
include hm

theorem partner_eq_some : sel.partner x = some y ↔ (x, y) ∈ sel.links := by
  rw [partner, Option.map_eq_some_iff]
  constructor
  · rintro ⟨l, hl, rfl⟩
    have hx : l.1 = x := by simpa using List.find?_some hl
    rw [← hx]
    exact List.mem_of_find?_eq_some hl
  · intro h
    obtain ⟨l, hl⟩ : ∃ l, sel.links.find? (·.1 = x) = some l :=
      Option.isSome_iff_exists.1 (List.find?_isSome.2 ⟨(x, y), h, by simp⟩)
    have hx : l.1 = x := by simpa using List.find?_some hl
    refine ⟨l, hl, hm.target_unique x l.2 y ?_ h⟩
    rw [← hx]
    exact List.mem_of_find?_eq_some hl

theorem checker_eq_some : sel.checker y = some x ↔ (x, y) ∈ sel.links :=
  ⟨mem_links_of_checker, fun h => checker_eq_some_of_unique (fun _ h' => hm.trigger_unique _ _ y h' h) h⟩

theorem step_of_isTarget (h : sel.Carries p f) (ht : f.polarity.isTarget = true) :
    sel.Step p q ↔ ∃ x, (x, p) ∈ sel.links ∧ sel.schema.successor x = some q := by
  rw [step_iff_of_isTarget h ht]
  simp only [hm.checker_eq_some]

include hf

theorem carries_of_link (h : (x, y) ∈ sel.links) :
    ∃ f g, sel.Carries x f ∧ sel.Carries y g ∧ f.checks g = true := by
  obtain ⟨f, g, hx, hy, hc⟩ := checks_of_isCompatible (hm.compatible x y h)
  obtain ⟨hxl, hyl⟩ := hf.links_lt x y h
  exact ⟨f, g, ⟨hxl, hx⟩, ⟨hyl, hy⟩, hc⟩

theorem isTarget_of_link (h : (x, y) ∈ sel.links) (hy : sel.Carries y g) : g.polarity.isTarget = true := by
  obtain ⟨f, g', _, hg', hc⟩ := hm.carries_of_link hf h
  rw [hy.unique hg']
  exact isTarget_of_checks hc

theorem step_iff (hp : p < sel.schema.pointCount) : sel.Step p q ↔
    (∃ f, sel.Carries p f ∧ f.polarity.isTrigger = true ∧ sel.schema.successor p = some q) ∨
      ∃ x, (x, p) ∈ sel.links ∧ sel.schema.successor x = some q := by
  constructor
  · intro h
    obtain ⟨f, hc, ⟨ht, hs⟩ | ⟨_, x, hx, hs⟩⟩ := exists_of_step hp h
    · exact .inl ⟨f, hc, ht, hs⟩
    · exact .inr ⟨x, mem_links_of_checker hx, hs⟩
  · rintro (⟨f, hc, ht, hs⟩ | ⟨x, hx, hs⟩)
    · exact (step_of_isTrigger hc ht).2 hs
    · obtain ⟨f, g, _, hg, hc⟩ := hm.carries_of_link hf hx
      exact (hm.step_of_isTarget hg (isTarget_of_checks hc)).2 ⟨x, hx, hs⟩

theorem carries_of_step (hp : p < sel.schema.pointCount) (h : sel.Step p q) :
    (∃ f, sel.Carries p f ∧ f.polarity ≠ .category) ∧ ∃ g, sel.Carries q g ∧ g.polarity ≠ .licensee := by
  have above : ∀ x f, sel.Carries x f → f.polarity.isTrigger = true → sel.schema.successor x = some q →
      ∃ g, sel.Carries q g ∧ g.polarity ≠ .licensee := by
    intro x f hx ht hs
    obtain ⟨q', g, hs', hg, hl⟩ := hf.successor_of_isTrigger hx ht
    rw [hs, Option.some.injEq] at hs'
    subst hs'
    exact ⟨g, hg, hl⟩
  rcases (hm.step_iff hf hp).1 h with ⟨f, hc, ht, hs⟩ | ⟨x, hx, hs⟩
  · exact ⟨⟨f, hc, Polarity.ne_category_of_isTrigger ht⟩, above p f hc ht hs⟩
  · obtain ⟨f, g, hcx, hcp, hc⟩ := hm.carries_of_link hf hx
    exact ⟨⟨g, hcp, Polarity.ne_category_of_isTarget (isTarget_of_checks hc)⟩,
      above x f hcx (isTrigger_of_checks hc) hs⟩

theorem exists_step (h : sel.Carries p f) (hc : f.polarity ≠ .category) : ∃ q, sel.Step p q := by
  by_cases ht : f.polarity.isTrigger = true
  · obtain ⟨q, _, hs, _⟩ := hf.successor_of_isTrigger h ht
    exact ⟨q, (step_of_isTrigger h ht).2 hs⟩
  · have hg := Polarity.isTarget_of_ne_category (by simpa using ht) hc
    obtain ⟨x, hx⟩ := hm.exists_trigger p f h hg
    obtain ⟨f', _, hcx, _, hck⟩ := hm.carries_of_link hf hx
    obtain ⟨q, _, hs, _⟩ := hf.successor_of_isTrigger hcx (isTrigger_of_checks hck)
    exact ⟨q, (hm.step_of_isTarget h hg).2 ⟨x, hx, hs⟩⟩

/-- Below a point that is not its slot's first one stand the trigger before it and what that checks. -/
theorem exists_check (h : sel.Carries q g) (hl : g.polarity ≠ .licensee) {x : PointId}
    (hx : sel.schema.predecessor q = some x) :
    ∃ y f k, sel.Carries x f ∧ sel.Carries y k ∧ f.checks k = true ∧ (x, y) ∈ sel.links ∧
      sel.schema.successor x = some q := by
  obtain ⟨hlt, hs⟩ := (hf.built.predecessor_eq_some h.1).1 hx
  obtain ⟨f, hcx, hiff⟩ := hf.carries_of_successor hlt hs h
  have ht : f.polarity.isTrigger = true := by
    by_contra ht
    have hcat : f.polarity ≠ .category := fun hc => hf.not_carries_of_category hcx hc hs h
    exact hl (hiff.2 (Polarity.isTarget_of_ne_category (by simpa using ht) hcat))
  obtain ⟨y, hy⟩ := hm.exists_target x f hcx ht
  obtain ⟨f', k, hcx', hcy, hc⟩ := hm.carries_of_link hf hy
  rw [hcx'.unique hcx] at hc
  exact ⟨y, f, k, hcx, hcy, hc, hy, hs⟩

end IsMatching

end Selection

end MinimalistGrammar
