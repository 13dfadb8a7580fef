import MinimalistGrammar.Proofs.Grouping
import MinimalistGrammar.Proofs.Selection.Layout

/-!
Spelling out. What a phrase is spelled as is what is pronounced under it, in the order of the checks; what has
been merged inside but is to move out still waits.
-/

open Relation

namespace MinimalistGrammar

/-- The same spellout with something else for each leaf. -/
def Spellout.flatMap (f : LeafId → List LeafId) (s : Spellout) : Spellout :=
  ⟨s.order.flatMap f, s.waiting.map fun x => (x.1, x.2.flatMap f)⟩

theorem Spellout.take_flatMap (f : LeafId → List LeafId) (leaf : LeafId) (s : Spellout) :
    (s.flatMap f).take leaf = ((s.take leaf).1.flatMap f, (s.take leaf).2.map fun x => (x.1, x.2.flatMap f)) := by
  have hlookup : ∀ l : List (LeafId × List LeafId),
      (l.map fun x => (x.1, x.2.flatMap f)).lookup leaf = (l.lookup leaf).map (·.flatMap f) := by
    intro l
    induction l with
    | nil => rfl
    | cons x l ih =>
      rw [List.map_cons, List.lookup_cons, List.lookup_cons, ih]
      cases leaf == x.1 <;> rfl
  rw [Spellout.take, Spellout.take, Spellout.flatMap]
  refine Prod.ext ?_ ?_
  · dsimp only
    rw [hlookup]
    cases s.waiting.lookup leaf <;> rfl
  · exact List.filter_map

theorem Tree.spell_eq_flatMap (hosts : List (LeafId × LeafId)) (landings : List FeatureRef) (t : Tree) :
    t.spell hosts landings = (t.spell [] landings).flatMap fun l => (Spellout.ofLeaf hosts l).order := by
  induction t with
  | lexical leaf =>
    have hleaf : ∀ hosts, Spellout.ofLeaf hosts leaf = ⟨(Spellout.ofLeaf hosts leaf).order, []⟩ := by
      intro hosts
      rw [Spellout.ofLeaf]
      split <;> rfl
    rw [Tree.spell, hleaf hosts]
    simp [Tree.spell, Spellout.flatMap, Spellout.ofLeaf]
  | merge b h a c ihh iha =>
    simp only [Tree.spell, ihh, iha]
    split
    · simp [Spellout.flatMap]
    · split <;> simp [Spellout.flatMap]
  | move h c ih =>
    simp only [Tree.spell, ih]
    split
    · rw [Spellout.take_flatMap]
      simp [Spellout.flatMap]
    · rfl

namespace Selection

variable {sel : Selection} {p q x y l l' : PointId} {f g k : Feature} {n : Nat} {a b m : SlotId}
  {L : List FeatureRef} {t : Tree} {c : PointId}

/-- The licensee of a phrase's last movement. -/
def IsLast (sel : Selection) (l : PointId) : Prop :=
  l ∈ sel.landings ∧ ∀ q, sel.schema.successor l = some q → q ∉ sel.landings

/-- A phrase of the slot has been merged below the point and has not yet come to its last landing. -/
def Waits (sel : Selection) (m : SlotId) (p : PointId) : Prop :=
  ∃ y l k, (sel.Carries y k ∧ k.polarity = .selectee) ∧ sel.IsLast l ∧
    (sel.schema.slotOf y = m ∧ sel.schema.slotOf l = m) ∧ TransGen sel.Step y p ∧ ¬TransGen sel.Step l p

section Slot

variable (hf : sel.IsFilled)
include hf

theorem selectee_unique {y' : PointId} {k' : Feature} (hy : sel.Carries y k) (hk : k.polarity = .selectee)
    (hy' : sel.Carries y' k') (hk' : k'.polarity = .selectee) (hs : sel.schema.slotOf y = sel.schema.slotOf y') :
    y = y' := by
  obtain ⟨_, item, hi, hfeat⟩ := carries_iff.1 hy
  obtain ⟨_, item', hi', hfeat'⟩ := carries_iff.1 hy'
  rw [← hs, hi, Option.some.injEq] at hi'
  subst hi'
  exact hf.built.point_eq hy.1 hy'.1 hs ((Item.eq_categoryIndex hfeat hk).trans (Item.eq_categoryIndex hfeat' hk').symm)

omit hf in
theorem index_lt_of_selectee (hy : sel.Carries y k) (hk : k.polarity = .selectee) (hl : l ∈ sel.landings)
    (hs : sel.schema.slotOf y = sel.schema.slotOf l) :
    (sel.schema.point y).index < (sel.schema.point l).index := by
  obtain ⟨g, hg, hpol⟩ := mem_landings.1 hl
  obtain ⟨_, item, hi, hfeat⟩ := carries_iff.1 hy
  obtain ⟨_, item', hi', hfeat'⟩ := carries_iff.1 hg
  rw [← hs, hi, Option.some.injEq] at hi'
  subst hi'
  exact Item.eq_categoryIndex hfeat hk ▸ (Item.licensee_iff hfeat').1 hpol

theorem exists_next_landing (hp : sel.Carries p f) (ht : f.polarity.isTarget = true) (hl : l ∈ sel.landings)
    (hs : sel.schema.slotOf p = sel.schema.slotOf l) (hi : (sel.schema.point p).index < (sel.schema.point l).index) :
    ∃ q, sel.schema.successor p = some q ∧ q ∈ sel.landings := by
  obtain ⟨g, hg, _⟩ := mem_landings.1 hl
  obtain ⟨_, item, hitem, hfeat⟩ := carries_iff.1 hp
  obtain ⟨_, item', hitem', hfeat'⟩ := carries_iff.1 hg
  rw [← hs, hitem, Option.some.injEq] at hitem'
  subst hitem'
  have hlen := Item.lt_length_of_feature? hfeat'
  obtain ⟨g', hg'⟩ := Item.exists_feature? (show (sel.schema.point p).index + 1 < item.features.length by omega)
  obtain ⟨q, hq, hcq⟩ := hf.exists_carries hitem hg'
  refine ⟨q, hq, mem_landings.2 ⟨g', hcq, (Item.licensee_iff hg').2 ?_⟩⟩
  have : ¬(sel.schema.point p).index < item.categoryIndex := fun h => by
    rw [Polarity.isTarget_of_isTrigger ((Item.isTrigger_iff hfeat).2 h)] at ht
    cases ht
  omega

/-- Every landing has a phrase that moves to it. -/
theorem exists_selectee (hl : l ∈ sel.landings) :
    ∃ y k, (sel.Carries y k ∧ k.polarity = .selectee) ∧ sel.schema.slotOf y = sel.schema.slotOf l := by
  obtain ⟨g, hg, hpol⟩ := mem_landings.1 hl
  obtain ⟨_, item, hitem, hfeat⟩ := carries_iff.1 hg
  have hlt := (Item.licensee_iff hfeat).1 hpol
  have hlen := Item.lt_length_of_feature? hfeat
  obtain ⟨k, hk⟩ := Item.exists_feature? item.categoryIndex_lt
  obtain ⟨y, hy, hcy⟩ := hf.exists_carries hitem hk
  have hslot : sel.schema.slotOf y = sel.schema.slotOf l := by
    rw [Schema.slotOf, (hf.built.pointAt?_eq_some.1 hy).2]
  refine ⟨y, k, ⟨hcy, ?_⟩, hslot⟩
  rcases Item.polarity_cases hk with ⟨h, _⟩ | ⟨_, h⟩ | ⟨_, _, h⟩ | ⟨h, _⟩
  · omega
  · exact h
  · omega
  · omega

theorem transGen_lies_of_selectee (hy : sel.Carries y k) (hk : k.polarity = .selectee) (hl : l ∈ sel.landings)
    (hs : sel.schema.slotOf y = sel.schema.slotOf l) : TransGen sel.Lies y l := by
  obtain ⟨g, hg, hpol⟩ := mem_landings.1 hl
  obtain ⟨base, f, hbase, hcb, ht⟩ := hf.predecessor_of_licensee hg hpol
  obtain ⟨hlt, hsucc⟩ := (hf.built.predecessor_eq_some hg.1).1 hbase
  obtain ⟨_, hslot, hindex⟩ := hf.slotOf_successor hsucc
  -- by the index of the landing
  induction hn : (sel.schema.point l).index generalizing l g base f with
  | zero => omega
  | succ n ih =>
    by_cases hb : base ∈ sel.landings
    · obtain ⟨g', hg', hpol'⟩ := mem_landings.1 hb
      obtain ⟨base', f', hbase', hcb', ht'⟩ := hf.predecessor_of_licensee hg' hpol'
      obtain ⟨hlt', hsucc'⟩ := (hf.built.predecessor_eq_some hg'.1).1 hbase'
      obtain ⟨_, hslot', hindex'⟩ := hf.slotOf_successor hsucc'
      exact (ih hb (hs.trans hslot) g' hg' hpol' base' f' hbase' hcb' ht' hlt' hsucc' hlt hslot' hindex'
        (by omega)).tail (.moveOn hlt hsucc hl)
    · have hsel : f.polarity = .selectee := by
        cases hp : f.polarity with
        | selectee => rfl
        | licensee => exact absurd (mem_landings.2 ⟨f, hcb, hp⟩) hb
        | selector => rw [hp] at ht; cases ht
        | licensor => rw [hp] at ht; cases ht
        | category => rw [hp] at ht; cases ht
      rw [selectee_unique hf hy hk hcb hsel (hs.trans hslot)]
      exact .single (.moveOn hlt hsucc hl)

theorem IsLast.unique (h : sel.IsLast l) (h' : sel.IsLast l') (hs : sel.schema.slotOf l = sel.schema.slotOf l') :
    l = l' := by
  have later : ∀ {l l'}, sel.IsLast l → l' ∈ sel.landings → sel.schema.slotOf l = sel.schema.slotOf l' →
      (sel.schema.point l').index ≤ (sel.schema.point l).index := by
    intro l l' h hl' hs
    obtain ⟨g, hg, hpol⟩ := mem_landings.1 h.1
    by_contra hlt
    obtain ⟨q, hq, hql⟩ := exists_next_landing hf hg (by rw [hpol]; rfl) hl' hs (by omega)
    exact h.2 q hq hql
  exact hf.built.point_eq (lt_of_mem_landings h.1) (lt_of_mem_landings h'.1) hs
    (Nat.le_antisymm (later h' h.1 hs.symm) (later h h'.1 hs))

theorem exists_isLast (hl : l ∈ sel.landings) : ∃ l', sel.IsLast l' ∧ sel.schema.slotOf l' = sel.schema.slotOf l := by
  obtain ⟨g, hg, hpol⟩ := mem_landings.1 hl
  obtain ⟨_, item, hitem, hfeat⟩ := carries_iff.1 hg
  -- by the number of features that follow
  induction hn : item.features.length - (sel.schema.point l).index generalizing l g with
  | zero =>
    have := Item.lt_length_of_feature? hfeat
    omega
  | succ n ih =>
    by_cases hnext : ∃ q, sel.schema.successor l = some q ∧ q ∈ sel.landings
    · obtain ⟨q, hs, hq⟩ := hnext
      obtain ⟨_, hslot, hindex⟩ := hf.slotOf_successor hs
      obtain ⟨g', hg', hpol'⟩ := mem_landings.1 hq
      obtain ⟨_, item', hitem', hfeat'⟩ := carries_iff.1 hg'
      rw [hslot, hitem, Option.some.injEq] at hitem'
      subst hitem'
      obtain ⟨l', hl', hs'⟩ := ih hq g' hg' hpol' hg'.1 (hslot ▸ hitem) hfeat' (by omega)
      exact ⟨l', hl', hs'.trans hslot⟩
    · exact ⟨l, ⟨hl, fun q hq hql => hnext ⟨q, hq, hql⟩⟩, rfl⟩

theorem isLastLanding_iff (hL : ∀ ref, ref ∈ L ↔ ∃ l ∈ sel.landings, ref = sel.featureRef l) (hl : l ∈ sel.landings) :
    isLastLanding L (sel.featureRef l) = true ↔ sel.IsLast l := by
  simp only [isLastLanding, List.all_eq_true, Bool.or_eq_true, decide_eq_true_eq, hL]
  constructor
  · intro h
    refine ⟨hl, fun q hq hql => ?_⟩
    obtain ⟨_, hslot, hindex⟩ := hf.slotOf_successor hq
    rcases h _ ⟨q, hql, rfl⟩ with hne | hle
    · exact hne hslot
    · simp only [featureRef] at hle
      omega
  · rintro h _ ⟨l', hl', rfl⟩
    by_cases hs : sel.schema.slotOf l' = sel.schema.slotOf l
    · right
      obtain ⟨g, hg, hpol⟩ := mem_landings.1 hl
      by_contra hlt
      simp only [featureRef] at hlt
      obtain ⟨q, hq, hql⟩ := exists_next_landing hf hg (by rw [hpol]; rfl) hl' hs.symm (by omega)
      exact h.2 q hq hql
    · exact .inl hs

end Slot

section Waiting

variable (hf : sel.IsFilled) (hd : sel.IsDerivation)
include hf hd

/-- A phrase is first merged below all of its landings. -/
theorem transGen_of_landing (hy : sel.Carries y k) (hk : k.polarity = .selectee) (hl : l ∈ sel.landings)
    (hs : sel.schema.slotOf y = sel.schema.slotOf l) (h : TransGen sel.Step l q) : TransGen sel.Step y q := by
  obtain ⟨r, hr, hrq⟩ := TransGen.head'_iff.1 h
  obtain ⟨r', hr'⟩ := hd.exists_step hf hy (by rw [hk]; decide)
  have hup := reflTransGen_of_lies hf hd (transGen_lies_of_selectee hf hy hk hl hs) hr' (.inr hr)
  exact TransGen.head' hr' (hup.trans hrq)

omit hd in
theorem Projects.transGen_iff_of_isTarget (hm : sel.IsMatching) (hp : sel.Projects p x y f k) (hg : sel.Carries c g)
    (ht : g.polarity.isTarget = true) :
    TransGen sel.Step c p ↔ c = y ∨ TransGen sel.Step c x ∨ TransGen sel.Step c y := by
  rw [hp.transGen_iff hf hm hg.1, reflTransGen_iff_eq_or_transGen, reflTransGen_iff_eq_or_transGen]
  have hx : ¬x = c := by
    rintro rfl
    have := isTrigger_of_checks hp.checks
    rw [hp.trigger.unique hg, Polarity.isTrigger_of_isTarget ht] at this
    cases this
  grind

omit hf hd in
theorem isTarget_of_mem_landings (hl : l ∈ sel.landings) : ∃ g, sel.Carries l g ∧ g.polarity.isTarget = true := by
  obtain ⟨g, hg, hpol⟩ := mem_landings.1 hl
  exact ⟨g, hg, by rw [hpol]; rfl⟩

omit hd in
theorem stays_iff (hp : sel.Projects p x y f k) (hk : k.polarity = .selectee) :
    sel.Stays x y ↔ ∀ l ∈ sel.landings, sel.schema.slotOf l ≠ sel.schema.slotOf y := by
  constructor
  · intro hst l hl hs
    obtain ⟨q, hq, hql⟩ := exists_next_landing hf hp.target (isTarget_of_checks hp.checks) hl hs.symm
      (index_lt_of_selectee hp.target hk hl hs.symm)
    exact hst.2 q hq hql
  · exact fun h => ⟨hp.link, fun q hq hql => h q hql (hf.slotOf_successor hq).2.1⟩

/-- How the phrases that wait change at a merge. -/
theorem waits_merge_iff (hp : sel.Projects p x y f k) (hk : k.polarity = .selectee) :
    sel.Waits m p ↔ (m = sel.schema.slotOf y ∧ ¬sel.Stays x y) ∨ sel.Waits m x ∨ sel.Waits m y := by
  have hm := hd.toIsMatching
  have hne : ∀ {l}, l ∈ sel.landings → l ≠ y := by
    rintro l hl rfl
    exact not_mem_landings hp.target (by rw [hk]; decide) hl
  have above : ∀ {l}, l ∈ sel.landings →
      (TransGen sel.Step l p ↔ TransGen sel.Step l x ∨ TransGen sel.Step l y) := by
    intro l hl
    obtain ⟨g, hg, ht⟩ := isTarget_of_mem_landings hl
    rw [hp.transGen_iff_of_isTarget hf hm hg ht, or_iff_right (hne hl)]
  constructor
  · rintro ⟨y', l, k', ⟨hy', hk'⟩, hl, ⟨rfl, hs⟩, hyp, hlp⟩
    rw [above hl.1, not_or] at hlp
    rcases (hp.transGen_iff_of_isTarget hf hm hy' (by rw [hk']; rfl)).1 hyp with rfl | hyx | hyy
    · exact .inl ⟨rfl, fun hst => (stays_iff hf hp hk).1 hst l hl.1 hs⟩
    · exact .inr (.inl ⟨y', l, k', ⟨hy', hk'⟩, hl, ⟨rfl, hs⟩, hyx, hlp.1⟩)
    · exact .inr (.inr ⟨y', l, k', ⟨hy', hk'⟩, hl, ⟨rfl, hs⟩, hyy, hlp.2⟩)
  · have up := fun {l y' : PointId} {k' : Feature} (hl : l ∈ sel.landings) (hy' : sel.Carries y' k')
      (hk' : k'.polarity = .selectee) (hs : sel.schema.slotOf y' = sel.schema.slotOf l) {q : PointId} =>
        transGen_of_landing (q := q) hf hd hy' hk' hl hs
    rintro (⟨rfl, hst⟩ | ⟨y', l, k', ⟨hy', hk'⟩, hl, ⟨rfl, hs⟩, hyx, hlx⟩ |
      ⟨y', l, k', ⟨hy', hk'⟩, hl, ⟨rfl, hs⟩, hyy, hly⟩)
    · rw [stays_iff hf hp hk] at hst
      obtain ⟨l, hl, hs⟩ : ∃ l, l ∈ sel.landings ∧ sel.schema.slotOf l = sel.schema.slotOf y := by
        by_contra h
        exact hst fun l hl hs => h ⟨l, hl, hs⟩
      -- the last landing is outside, or the selectee would stand below its own check
      obtain ⟨l', hl', hs'⟩ := exists_isLast hf hl
      refine ⟨y, l', k, ⟨hp.target, hk⟩, hl', ⟨rfl, hs'.trans hs⟩, .single (hp.step_target hm), fun h => ?_⟩
      rcases (above hl'.1).1 h with hlx | hly
      · exact hp.disjoint hm hd.isAcyclic (up hl'.1 hp.target hk (hs'.trans hs).symm hlx).to_reflTransGen .refl
      · exact hd.isAcyclic y (up hl'.1 hp.target hk (hs'.trans hs).symm hly)
    · refine ⟨y', l, k', ⟨hy', hk'⟩, hl, ⟨rfl, hs⟩, hyx.tail hp.step_trigger, fun h => ?_⟩
      have hly := ((above hl.1).1 h).resolve_left hlx
      exact hp.disjoint hm hd.isAcyclic hyx.to_reflTransGen (up hl.1 hy' hk' hs.symm hly).to_reflTransGen
    · refine ⟨y', l, k', ⟨hy', hk'⟩, hl, ⟨rfl, hs⟩, hyy.tail (hp.step_target hm), fun h => ?_⟩
      have hlx := ((above hl.1).1 h).resolve_right hly
      exact hp.disjoint hm hd.isAcyclic (up hl.1 hy' hk' hs.symm hlx).to_reflTransGen hyy.to_reflTransGen

/-- At a movement to its last landing a phrase waits no more. -/
theorem waits_move_iff (hp : sel.Projects p x y f k) (hk : k.polarity = .licensee) :
    sel.Waits m p ↔ sel.Waits m x ∧ ¬(sel.IsLast y ∧ m = sel.schema.slotOf y) := by
  have hm := hd.toIsMatching
  have above : ∀ {c g}, sel.Carries c g → g.polarity.isTarget = true →
      (TransGen sel.Step c p ↔ c = y ∨ TransGen sel.Step c x) := by
    intro c g hg ht
    rw [hp.transGen_iff_of_isTarget hf hm hg ht,
      or_iff_left (not_transGen_of_licensee hf hm hp.target hk hg.1)]
  have above_landing : ∀ {l}, l ∈ sel.landings →
      (TransGen sel.Step l p ↔ l = y ∨ TransGen sel.Step l x) := by
    intro l hl
    obtain ⟨g, hg, ht⟩ := isTarget_of_mem_landings hl
    exact above hg ht
  constructor
  · rintro ⟨y', l, k', ⟨hy', hk'⟩, hl, ⟨rfl, hs⟩, hyp, hlp⟩
    rw [above_landing hl.1, not_or] at hlp
    have hyx := ((above hy' (by rw [hk']; rfl)).1 hyp).resolve_left (by
      rintro rfl
      rw [hy'.unique hp.target, hk] at hk'
      cases hk')
    exact ⟨⟨y', l, k', ⟨hy', hk'⟩, hl, ⟨rfl, hs⟩, hyx, hlp.2⟩, fun ⟨hy, he⟩ =>
      hlp.1 (hl.unique hf hy (hs.trans he))⟩
  · rintro ⟨⟨y', l, k', ⟨hy', hk'⟩, hl, ⟨rfl, hs⟩, hyx, hlx⟩, hlast⟩
    refine ⟨y', l, k', ⟨hy', hk'⟩, hl, ⟨rfl, hs⟩, hyx.tail hp.step_trigger, fun h => ?_⟩
    rcases (above_landing hl.1).1 h with rfl | h
    · exact hlast ⟨hl, hs.symm⟩
    · exact hlx h

theorem waits_of_isLast (hp : sel.Projects p x y f k) (hy : sel.IsLast y) : sel.Waits (sel.schema.slotOf y) x := by
  obtain ⟨y', k', ⟨hy', hk'⟩, hs⟩ := exists_selectee hf hy.1
  have hm := hd.toIsMatching
  have hyp := transGen_of_landing hf hd hy' hk' hy.1 hs (.single (hp.step_target hm))
  obtain ⟨g, hg, hpol⟩ := mem_landings.1 hy.1
  refine ⟨y', y, k', ⟨hy', hk'⟩, hy, ⟨hs, rfl⟩, ?_, fun h => ?_⟩
  · rcases (hp.transGen_iff_of_isTarget hf hm hy' (by rw [hk']; rfl)).1 hyp with rfl | hyx | hyy
    · exact absurd hy.1 (not_mem_landings hy' (by rw [hk']; decide))
    · exact hyx
    · exact absurd hyy (not_transGen_of_licensee hf hm hg hpol hy'.1)
  · exact hp.disjoint hm hd.isAcyclic h.to_reflTransGen .refl

/-- Two phrases of one check hold no two that are the same and wait. -/
theorem Projects.not_waits (hp : sel.Projects p x y f k) (hx : sel.Waits m x) (hy : sel.Waits m y) : False := by
  obtain ⟨z, l, k', ⟨hz, hk'⟩, _, ⟨rfl, _⟩, hzx, _⟩ := hx
  obtain ⟨z', l', k'', ⟨hz', hk''⟩, _, ⟨hs, _⟩, hzy, _⟩ := hy
  rw [selectee_unique hf hz' hk'' hz hk' hs] at hzy
  exact hp.disjoint hd.toIsMatching hd.isAcyclic hzx.to_reflTransGen hzy.to_reflTransGen

theorem Projects.not_waits_target (hp : sel.Projects p x y f k) (hk : k.polarity = .selectee) :
    ¬sel.Waits (sel.schema.slotOf y) x ∧ ¬sel.Waits (sel.schema.slotOf y) y := by
  constructor
  · rintro ⟨z, l, k', ⟨hz, hk'⟩, _, ⟨hs, _⟩, hzx, _⟩
    rw [selectee_unique hf hz hk' hp.target hk hs] at hzx
    exact hp.disjoint hd.toIsMatching hd.isAcyclic hzx.to_reflTransGen .refl
  · rintro ⟨z, l, k', ⟨hz, hk'⟩, _, ⟨hs, _⟩, hzy, _⟩
    rw [selectee_unique hf hz hk' hp.target hk hs] at hzy
    exact hd.isAcyclic y hzy

end Waiting

/-- What a phrase is spelled as: what is sure to be pronounced under its point, and the phrases that wait. -/
structure Spelled (sel : Selection) (p : PointId) (t : Tree) (s : Spellout) : Prop where
  pinned : ∀ a ∈ s.order, sel.PinnedAt a p
  ordered : s.order.Pairwise sel.Precedes
  nodup_keys : (s.waiting.map (·.1)).Nodup
  mem_keys : ∀ m, m ∈ s.waiting.map (·.1) ↔ sel.Waits m p
  pinned_waiting : ∀ m w, (m, w) ∈ s.waiting → ∀ y k, sel.Carries y k → k.polarity = .selectee →
    sel.schema.slotOf y = m → ∀ a ∈ w, sel.PinnedAt a y
  ordered_waiting : ∀ m w, (m, w) ∈ s.waiting → w.Pairwise sel.Precedes
  mem_leaves : ∀ a, a ∈ t.leaves ↔ a ∈ s.order ∨ ∃ x ∈ s.waiting, a ∈ x.2

section Spelled

variable (hf : sel.IsFilled) (hd : sel.IsDerivation)
include hf hd

theorem spelled_lexical (hc : sel.Carries p f) (hn : sel.schema.predecessor p = none) :
    sel.Spelled p (.lexical (sel.schema.slotOf p)) (Spellout.ofLeaf [] (sel.schema.slotOf p)) where
  pinned := by
    intro a ha
    obtain rfl : a = sel.schema.slotOf p := by simpa [Spellout.ofLeaf] using ha
    rw [PinnedAt, lexicalPoint_slotOf hf hc.1 hn]
  ordered := by simp [Spellout.ofLeaf]
  nodup_keys := by simp [Spellout.ofLeaf]
  mem_keys := by
    simp only [Spellout.ofLeaf, List.any_nil, Bool.false_eq_true, if_false, List.map_nil, List.not_mem_nil, false_iff]
    rintro m ⟨y, _, _, ⟨hy, _⟩, _, _, hyp, _⟩
    exact not_transGen_of_predecessor_none hf hd.toIsMatching hn hy.1 hyp
  pinned_waiting := by simp [Spellout.ofLeaf]
  ordered_waiting := by simp [Spellout.ofLeaf]
  mem_leaves := by simp [Spellout.ofLeaf, Tree.leaves]

theorem Spelled.append {h a : Tree} {s s' : Spellout} (hp : sel.Projects p x y f k) (hs : sel.Spelled x h s)
    (hs' : sel.Spelled y a s') : ((s.waiting ++ s'.waiting).map (·.1)).Nodup ∧
      (∀ m, m ∈ (s.waiting ++ s'.waiting).map (·.1) ↔ sel.Waits m x ∨ sel.Waits m y) := by
  rw [List.map_append]
  refine ⟨List.nodup_append.2 ⟨hs.nodup_keys, hs'.nodup_keys, ?_⟩, fun m => ?_⟩
  · rintro m hm m' hm' rfl
    exact hp.not_waits hf hd ((hs.mem_keys m).1 hm) ((hs'.mem_keys m).1 hm')
  · rw [List.mem_append, hs.mem_keys, hs'.mem_keys]

theorem Spelled.merge_moveOn {h a : Tree} {s s' : Spellout} {b : Bool} {c : Check} (hp : sel.Projects p x y f k)
    (hk : k.polarity = .selectee) (hst : ¬sel.Stays x y) (hs : sel.Spelled x h s) (hs' : sel.Spelled y a s') :
    sel.Spelled p (.merge b h a c)
      ⟨s.order, (sel.schema.slotOf y, s'.order) :: (s.waiting ++ s'.waiting)⟩ := by
  obtain ⟨hnodup, hkeys⟩ := hs.append hf hd hp hs'
  refine ⟨fun a ha => (hs.pinned a ha).tail (.project hp.trigger (isTrigger_of_checks hp.checks) hp.successor),
    hs.ordered, ?_, fun m => ?_, fun m w hw z k' hz hk' hm a ha => ?_, fun m w hw => ?_, fun l => ?_⟩
  · rw [List.map_cons, List.nodup_cons, hkeys]
    exact ⟨not_or.2 (hp.not_waits_target hf hd hk), hnodup⟩
  · rw [List.map_cons, List.mem_cons, hkeys, waits_merge_iff hf hd hp hk, and_iff_left hst]
  · rcases List.mem_cons.1 hw with he | hw
    · obtain ⟨rfl, rfl⟩ := Prod.mk.inj he
      rw [selectee_unique hf hz hk' hp.target hk hm]
      exact hs'.pinned a ha
    · rcases List.mem_append.1 hw with hw | hw
      · exact hs.pinned_waiting m w hw z k' hz hk' hm a ha
      · exact hs'.pinned_waiting m w hw z k' hz hk' hm a ha
  · rcases List.mem_cons.1 hw with he | hw
    · obtain ⟨rfl, rfl⟩ := Prod.mk.inj he
      exact hs'.ordered
    · rcases List.mem_append.1 hw with hw | hw
      · exact hs.ordered_waiting m w hw
      · exact hs'.ordered_waiting m w hw
  · rw [Tree.leaves, List.mem_append, hs.mem_leaves, hs'.mem_leaves]
    simp only [List.mem_cons, List.mem_append, or_and_right, exists_or, exists_eq_left]
    grind

theorem Spelled.merge_stay {h a : Tree} {s s' : Spellout} {b : Bool} {c : Check} (hp : sel.Projects p x y f k)
    (hk : k.polarity = .selectee) (hst : sel.Stays x y) (hs : sel.Spelled x h s) (hs' : sel.Spelled y a s') :
    sel.Spelled p (.merge b h a c)
      (if (sel.schema.point x).isLexical then ⟨s.order ++ s'.order, s.waiting ++ s'.waiting⟩
        else ⟨s'.order ++ s.order, s.waiting ++ s'.waiting⟩) := by
  obtain ⟨hnodup, hkeys⟩ := hs.append hf hd hp hs'
  have hx : ∀ a ∈ s.order, sel.PinnedAt a p := fun a ha =>
    (hs.pinned a ha).tail (.project hp.trigger (isTrigger_of_checks hp.checks) hp.successor)
  have hy : ∀ a ∈ s'.order, sel.PinnedAt a p := fun a ha => (hs'.pinned a ha).tail (.stay hst hp.successor)
  -- whichever comes first
  have either : ∀ o : List SlotId, (∀ a, a ∈ o ↔ a ∈ s.order ∨ a ∈ s'.order) → o.Pairwise sel.Precedes →
      sel.Spelled p (.merge b h a c) ⟨o, s.waiting ++ s'.waiting⟩ := by
    intro o ho hord
    refine ⟨fun a ha => ((ho a).1 ha).elim (hx a) (hy a), hord, hnodup, fun m => ?_,
      fun m w hw z k' hz hk' hm a ha => ?_, fun m w hw => ?_, fun l => ?_⟩
    · rw [hkeys, waits_merge_iff hf hd hp hk, or_iff_right (a := m = sel.schema.slotOf y ∧ ¬sel.Stays x y) fun h => h.2 hst]
    · rcases List.mem_append.1 hw with hw | hw
      · exact hs.pinned_waiting m w hw z k' hz hk' hm a ha
      · exact hs'.pinned_waiting m w hw z k' hz hk' hm a ha
    · rcases List.mem_append.1 hw with hw | hw
      · exact hs.ordered_waiting m w hw
      · exact hs'.ordered_waiting m w hw
    · rw [Tree.leaves, List.mem_append, hs.mem_leaves, hs'.mem_leaves, ho]
      simp only [List.mem_append, or_and_right, exists_or]
      grind
  split
  · rename_i hlex
    refine either _ (fun a => List.mem_append) (List.pairwise_append.2 ⟨hs.ordered, hs'.ordered, ?_⟩)
    exact fun a ha b hb => ⟨x, y, hst, .inl ⟨hlex, hs.pinned a ha, hs'.pinned b hb⟩⟩
  · rename_i hlex
    refine either _ (fun a => List.mem_append.trans or_comm) (List.pairwise_append.2 ⟨hs'.ordered, hs.ordered, ?_⟩)
    exact fun a ha b hb => ⟨x, y, hst, .inr ⟨by simpa using hlex, hs.pinned b hb, hs'.pinned a ha⟩⟩

theorem Spelled.move_pass {h : Tree} {s : Spellout} {c : Check} (hp : sel.Projects p x y f k)
    (hk : k.polarity = .licensee) (hl : ¬sel.IsLast y) (hs : sel.Spelled x h s) : sel.Spelled p (.move h c) s :=
  ⟨fun a ha => (hs.pinned a ha).tail (.project hp.trigger (isTrigger_of_checks hp.checks) hp.successor),
    hs.ordered, hs.nodup_keys,
    fun m => by rw [hs.mem_keys, waits_move_iff hf hd hp hk, and_iff_left fun h => hl h.1],
    hs.pinned_waiting, hs.ordered_waiting, hs.mem_leaves⟩

omit hf hd in
theorem Projects.not_isLexical (hp : sel.Projects p x y f k) (hk : k.polarity = .licensee) :
    (sel.schema.point x).isLexical = false := by
  obtain ⟨_, item, _, hfeat⟩ := carries_iff.1 hp.trigger
  rw [Point.isLexical, decide_eq_false_iff_not]
  intro h
  exact Item.ne_licensor_zero (h ▸ hfeat) ((licensor_iff_of_checks hp.checks).2 hk)

theorem Spelled.move_last {h : Tree} {s : Spellout} {c : Check} (hp : sel.Projects p x y f k)
    (hk : k.polarity = .licensee) (hl : sel.IsLast y) (hs : sel.Spelled x h s) :
    sel.Spelled p (.move h c)
      ⟨(s.take (sel.schema.slotOf y)).1 ++ s.order, (s.take (sel.schema.slotOf y)).2⟩ := by
  -- the phrase waits inside the head
  obtain ⟨⟨m, w⟩, hw, hm⟩ := List.mem_map.1 ((hs.mem_keys _).2 (waits_of_isLast hf hd hp hl))
  dsimp only at hm
  subst hm
  have htake : s.take (sel.schema.slotOf y) = (w, s.waiting.filter (·.1 ≠ sel.schema.slotOf y)) := by
    rw [Spellout.take, lookup_of_mem hs.nodup_keys hw, Option.getD_some]
  have hst : sel.Stays x y := ⟨hp.link, hl.2⟩
  obtain ⟨z, k', ⟨hz, hk'⟩, hslot⟩ := exists_selectee hf hl.1
  have hpin : ∀ a ∈ w, sel.PinnedAt a y := fun a ha =>
    (hs.pinned_waiting _ w hw z k' hz hk' hslot a ha).trans
      (transGen_lies_of_selectee hf hz hk' hl.1 hslot).to_reflTransGen
  rw [htake]
  refine ⟨fun a ha => ?_, ?_, ?_, fun m => ?_, fun m w' hw' => hs.pinned_waiting m w' (List.mem_filter.1 hw').1,
    fun m w' hw' => hs.ordered_waiting m w' (List.mem_filter.1 hw').1, fun a => ?_⟩
  · rcases List.mem_append.1 ha with ha | ha
    · exact (hpin a ha).tail (.stay hst hp.successor)
    · exact (hs.pinned a ha).tail (.project hp.trigger (isTrigger_of_checks hp.checks) hp.successor)
  · refine List.pairwise_append.2 ⟨hs.ordered_waiting _ w hw, hs.ordered, fun a ha b hb => ?_⟩
    exact ⟨x, y, hst, .inr ⟨hp.not_isLexical hk, hs.pinned b hb, hpin a ha⟩⟩
  · exact hs.nodup_keys.sublist (List.filter_sublist.map _)
  · rw [waits_move_iff hf hd hp hk, and_iff_right hl, ← hs.mem_keys]
    simp only [List.mem_map, List.mem_filter, decide_eq_true_eq]
    grind
  · rw [Tree.leaves, hs.mem_leaves]
    have hkey := fun {w'} (hw' : (sel.schema.slotOf y, w') ∈ s.waiting) =>
      List.inj_on_of_nodup_map hs.nodup_keys hw' hw rfl
    simp only [List.mem_append, List.mem_filter, decide_eq_true_eq]
    grind

/-- Spelling a phrase out keeps to the order of the checks. -/
theorem Builds.spelled (hL : ∀ ref, ref ∈ L ↔ ∃ l ∈ sel.landings, ref = sel.featureRef l) (h : sel.Builds p t) :
    sel.Spelled p t (t.spell [] L) := by
  have hm := hd.toIsMatching
  induction h with
  | lexical hc hn => exact spelled_lexical hf hd hc hn
  | @merge p x y f k h a hp hk hh ha ihh iha =>
    have hsel : k.polarity = .selectee :=
      Polarity.eq_selectee_of_isTarget (isTarget_of_checks hp.checks) hk
    -- the argument stays if no landing in the list is its own
    have hany : L.any (·.leaf = a.head) = true ↔ ¬sel.Stays x y := by
      rw [stays_iff hf hp hsel, ha.head_eq hf]
      simp only [List.any_eq_true, decide_eq_true_eq, hL]
      constructor
      · rintro ⟨_, ⟨l, hl, rfl⟩, he⟩ hall
        exact hall l hl he
      · intro hall
        by_contra hno
        exact hall fun l hl he => hno ⟨_, ⟨l, hl, rfl⟩, he⟩
    rw [Tree.spell]
    split
    · rename_i hmv
      rw [ha.head_eq hf]
      exact ihh.merge_moveOn hf hd hp hsel (hany.1 hmv) iha
    · rename_i hmv
      rw [hany, not_not] at hmv
      rw [hh.isLexical_iff hf]
      exact ihh.merge_stay hf hd hp hsel hmv iha
  | @move p x y f k h hp hk hh ih =>
    have hl : y ∈ sel.landings := Selection.mem_landings.2 ⟨k, hp.target, hk⟩
    rw [Tree.spell]
    split
    · rename_i hlast
      exact ih.move_last hf hd hp hk ((isLastLanding_iff hf hL hl).1 hlast)
    · rename_i hlast
      exact ih.move_pass hf hd hp hk fun h => hlast ((isLastLanding_iff hf hL hl).2 h)

end Spelled

end Selection

end MinimalistGrammar
