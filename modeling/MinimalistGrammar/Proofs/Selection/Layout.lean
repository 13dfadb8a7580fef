import MinimalistGrammar.Proofs.Selection.Tree

/-!
Where things are pronounced. A phrase lies where it was checked last, so the points lie one under another in a
second forest, and two items are ordered by the one check that brings them together.
-/

open Relation

namespace MinimalistGrammar

namespace Selection

variable {sel : Selection} {p q r x y : PointId} {f g : Feature} {n : Nat} {a b slot : SlotId}

/-- After this check the phrase moves no further. -/
def Stays (sel : Selection) (x y : PointId) : Prop :=
  (x, y) ∈ sel.links ∧ ∀ q, sel.schema.successor y = some q → q ∉ sel.landings

/-- What a point is pronounced directly under. -/
inductive Lies (sel : Selection) : PointId → PointId → Prop
  | project {p q : PointId} {f : Feature} : sel.Carries p f → f.polarity.isTrigger = true →
      sel.schema.successor p = some q → Lies sel p q
  | moveOn {p q : PointId} : p < sel.schema.pointCount → sel.schema.successor p = some q → q ∈ sel.landings →
      Lies sel p q
  | stay {x p q : PointId} : sel.Stays x p → sel.schema.successor x = some q → Lies sel p q

/-- The slot's item is pronounced under the point. -/
def PinnedAt (sel : Selection) (slot : SlotId) (p : PointId) : Prop :=
  ReflTransGen sel.Lies (sel.schema.lexicalPoint slot) p

/-- Some check brings two items together in this order: a complement follows a lexical head, and any other
argument precedes its head. -/
def Precedes (sel : Selection) (a b : SlotId) : Prop :=
  ∃ x y, sel.Stays x y ∧
    (((sel.schema.point x).isLexical = true ∧ sel.PinnedAt a x ∧ sel.PinnedAt b y) ∨
      ((sel.schema.point x).isLexical = false ∧ sel.PinnedAt b x ∧ sel.PinnedAt a y))

theorem not_mem_landings (hg : sel.Carries p g) (hl : g.polarity ≠ .licensee) : p ∉ sel.landings := by
  intro h
  obtain ⟨g', hg', hpol⟩ := mem_landings.1 h
  exact hl (hg.unique hg' ▸ hpol)

section Matched

variable (hf : sel.IsFilled) (hm : sel.IsMatching)
include hf

theorem carries_of_mem_landings (hp : p < sel.schema.pointCount) (hs : sel.schema.successor p = some q)
    (hq : q ∈ sel.landings) : ∃ f, sel.Carries p f ∧ f.polarity.isTarget = true := by
  obtain ⟨g, hg, hl⟩ := mem_landings.1 hq
  obtain ⟨f, hp, hiff⟩ := hf.carries_of_successor hp hs hg
  exact ⟨f, hp, hiff.1 hl⟩

include hm

theorem step_of_link (h : (x, y) ∈ sel.links) (hs : sel.schema.successor x = some q) : sel.Step y q := by
  obtain ⟨f, g, _, hg, hc⟩ := hm.carries_of_link hf h
  exact (hm.step_of_isTarget hg (isTarget_of_checks hc)).2 ⟨x, h, hs⟩

theorem Lies.unique (h : sel.Lies p q) (h' : sel.Lies p r) : q = r := by
  have trigger_ne_target : ∀ {x f}, sel.Carries p f → f.polarity.isTrigger = true → (x, p) ∉ sel.links := by
    intro x f hp ht hx
    rw [Polarity.isTrigger_of_isTarget (hm.isTarget_of_link hf hx hp)] at ht
    cases ht
  cases h with
  | project hp ht hs =>
    cases h' with
    | project _ _ hs' => exact Option.some.inj (hs.symm.trans hs')
    | moveOn _ hs' _ => exact Option.some.inj (hs.symm.trans hs')
    | stay hst _ => exact absurd hst.1 (trigger_ne_target hp ht)
  | moveOn _ hs hq =>
    cases h' with
    | project _ _ hs' => exact Option.some.inj (hs.symm.trans hs')
    | moveOn _ hs' _ => exact Option.some.inj (hs.symm.trans hs')
    | stay hst _ => exact absurd hq (hst.2 _ hs)
  | stay hst hs =>
    cases h' with
    | project hp ht _ => exact absurd hst.1 (trigger_ne_target hp ht)
    | moveOn _ hs' hq => exact absurd hq (hst.2 _ hs')
    | stay hst' hs' =>
      rw [hm.trigger_unique _ _ _ hst.1 hst'.1] at hs
      exact Option.some.inj (hs.symm.trans hs')

theorem Lies.exists_step (h : sel.Lies p q) : ∃ r, sel.Step p r := by
  cases h with
  | project hp ht hs => exact ⟨q, (step_of_isTrigger hp ht).2 hs⟩
  | moveOn hp hs hq =>
    obtain ⟨f, hf', ht⟩ := carries_of_mem_landings hf hp hs hq
    exact hm.exists_step hf hf' (Polarity.ne_category_of_isTarget ht)
  | stay hst hs => exact ⟨q, step_of_link hf hm hst.1 hs⟩

/-- A landing lies under the next one or stays. -/
theorem exists_lies_of_mem_landings (hp : p ∈ sel.landings) : ∃ q, q ∉ sel.landings ∧ TransGen sel.Lies p q := by
  obtain ⟨g, hg, hl⟩ := mem_landings.1 hp
  obtain ⟨_, item, hi, hfeat⟩ := carries_iff.1 hg
  -- by the number of features that follow
  induction hn : item.features.length - (sel.schema.point p).index generalizing p g with
  | zero =>
    have := Item.lt_length_of_feature? hfeat
    omega
  | succ n ih =>
    by_cases hnext : ∃ q, sel.schema.successor p = some q ∧ q ∈ sel.landings
    · obtain ⟨q, hs, hq⟩ := hnext
      obtain ⟨_, hslot, hindex⟩ := hf.slotOf_successor hs
      obtain ⟨g', hg', hl'⟩ := mem_landings.1 hq
      obtain ⟨_, item', hi', hfeat'⟩ := carries_iff.1 hg'
      rw [hslot, hi, Option.some.injEq] at hi'
      subst hi'
      obtain ⟨z, hz, hlies⟩ := ih hq g' hg' hl' hg'.1 (hslot ▸ hi) hfeat' (by omega)
      exact ⟨z, hz, .head (.moveOn hg.1 hs hq) hlies⟩
    · obtain ⟨x, hx⟩ := hm.exists_trigger p g hg (by rw [hl]; rfl)
      obtain ⟨f, _, hfx, _, hc⟩ := hm.carries_of_link hf hx
      obtain ⟨q, k, hs, hk, hne⟩ := hf.successor_of_isTrigger hfx (isTrigger_of_checks hc)
      refine ⟨q, not_mem_landings hk hne, .single (.stay ⟨hx, fun r hr hrl => hnext ⟨r, hr, hrl⟩⟩ hs)⟩

end Matched

section Derivation

variable (hf : sel.IsFilled) (hd : sel.IsDerivation)
include hf hd

theorem transGen_of_moveOn (hp : p < sel.schema.pointCount) (hs : sel.schema.successor p = some q)
    (hq : q ∈ sel.landings) (hr : sel.Step q r) : TransGen sel.Step p r := by
  obtain ⟨g, hg, hl⟩ := mem_landings.1 hq
  have hlic := hd.isLicensed q g hg hl
  obtain ⟨x, hx, hsx⟩ := (hd.step_of_isTarget hg (by rw [hl]; rfl)).1 hr
  rw [isLicensed, (hf.built.predecessor_eq_some hg.1).2 ⟨hp, hs⟩, hd.checker_eq_some.2 hx, Option.bind_some,
    hsx] at hlic
  exact (dominates_iff hf hd.isAcyclic hp).1 hlic

/-- What stands above a point is below what stands above all that it lies under. -/
theorem reflTransGen_of_lies {u : PointId} (h : TransGen sel.Lies p q) (hr : sel.Step p r)
    (hu : (q ∉ sel.landings ∧ u = q) ∨ sel.Step q u) : ReflTransGen sel.Step r u := by
  have direct : ∀ {p r}, sel.Step p q → sel.Step p r → ReflTransGen sel.Step r u := by
    intro p r hq hr
    rw [← hq.unique hr]
    rcases hu with ⟨_, rfl⟩ | hu
    · exact .refl
    · exact .single hu
  induction h using TransGen.head_induction_on generalizing r with
  | single h =>
    cases h with
    | project hp ht hs => exact direct ((step_of_isTrigger hp ht).2 hs) hr
    | stay hst hs => exact direct (step_of_link hf hd.toIsMatching hst.1 hs) hr
    | moveOn hp hs hl =>
      have hu : sel.Step q u := hu.resolve_left fun h => h.1 hl
      obtain ⟨c, hc, hrest⟩ := TransGen.head'_iff.1 (transGen_of_moveOn hf hd hp hs hl hu)
      rwa [hc.unique hr] at hrest
  | head h hrest ih =>
    obtain ⟨c, hc, _⟩ := TransGen.head'_iff.1 hrest
    obtain ⟨r', hr'⟩ := hc.exists_step hf hd.toIsMatching
    have hup := ih hr'
    cases h with
    | project hp ht hs =>
      rw [← ((step_of_isTrigger hp ht).2 hs).unique hr]
      exact .head hr' hup
    | stay hst hs =>
      rw [← (step_of_link hf hd.toIsMatching hst.1 hs).unique hr]
      exact .head hr' hup
    | moveOn hp hs hl =>
      obtain ⟨c', hc', hrest'⟩ := TransGen.head'_iff.1 (transGen_of_moveOn hf hd hp hs hl hr')
      rw [hc'.unique hr] at hrest'
      exact hrest'.trans hup

theorem isForest_lies : IsForest sel.Lies := by
  have hm := hd.toIsMatching
  have inside : ∀ p, p ∉ sel.landings → ¬TransGen sel.Lies p p := by
    intro p hp h
    obtain ⟨c, hc, _⟩ := TransGen.head'_iff.1 h
    obtain ⟨r, hr⟩ := hc.exists_step hf hm
    exact hd.isAcyclic p (TransGen.head' hr (reflTransGen_of_lies hf hd h hr (.inl ⟨hp, rfl⟩)))
  refine ⟨fun x y z h h' => h.unique hf hm h', fun p h => ?_⟩
  by_cases hp : p ∈ sel.landings
  · obtain ⟨q, hq, hpq⟩ := exists_lies_of_mem_landings hf hm hp
    exact inside q hq (transGen_self_of_reflTransGen (fun _ _ _ h h' => h.unique hf hm h') h hpq.to_reflTransGen)
  · exact inside p hp h

/-- No check brings two items together in one order when another brings them together in the other. -/
theorem Precedes.asymm (h : sel.Precedes a b) : ¬sel.Precedes b a := by
  have hm := hd.toIsMatching
  have siblings : ∀ {x y}, sel.Stays x y → ∃ z, sel.Lies x z ∧ sel.Lies y z ∧ x ≠ y := by
    intro x y hst
    obtain ⟨f, g, hx, hy, hc⟩ := hm.carries_of_link hf hst.1
    have ht := isTrigger_of_checks hc
    obtain ⟨z, _, hs, _⟩ := hf.successor_of_isTrigger hx ht
    refine ⟨z, .project hx ht hs, .stay hst hs, ?_⟩
    rintro rfl
    rw [hx.unique hy, Polarity.isTrigger_of_isTarget (isTarget_of_checks hc)] at ht
    cases ht
  have trigger_ne : ∀ {x y x' y'}, sel.Stays x y → sel.Stays x' y' → x ≠ y' := by
    rintro x y x' _ hst hst' rfl
    obtain ⟨f, _, hx, _, hc⟩ := hm.carries_of_link hf hst.1
    have ht := isTrigger_of_checks hc
    rw [Polarity.isTrigger_of_isTarget (hm.isTarget_of_link hf hst'.1 hx)] at ht
    cases ht
  have hforest := isForest_lies hf hd
  rintro ⟨x', y', hst', h'⟩
  obtain ⟨x, y, hst, h⟩ := h
  obtain ⟨z, hxz, hyz, hne⟩ := siblings hst
  obtain ⟨z', hxz', hyz', hne'⟩ := siblings hst'
  rcases h with ⟨hlex, ha, hb⟩ | ⟨hlex, hb, ha⟩ <;> rcases h' with ⟨hlex', hb', ha'⟩ | ⟨hlex', ha', hb'⟩
  · exact trigger_ne hst hst' (hforest.siblings_eq ha hb hxz hyz hne ha' hb' hyz' hxz' hne'.symm).1
  · have := (hforest.siblings_eq ha hb hxz hyz hne ha' hb' hxz' hyz' hne').1
    rw [this, hlex'] at hlex
    cases hlex
  · have := (hforest.siblings_eq hb ha hxz hyz hne hb' ha' hxz' hyz' hne').1
    rw [this, hlex'] at hlex
    cases hlex
  · exact trigger_ne hst' hst (hforest.siblings_eq ha hb hyz hxz hne.symm ha' hb' hxz' hyz' hne').1.symm

theorem Precedes.ne (h : sel.Precedes a b) : a ≠ b := by
  rintro rfl
  exact h.asymm hf hd h

end Derivation

end Selection

end MinimalistGrammar
