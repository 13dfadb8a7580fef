import MinimalistGrammar.Proofs.Parse.ShortestMove

/-!
What the possible movements come to in derivations. The link of one says that a check takes place, and the check is a
movement only if the item that is chosen has a licensee there. So the policy that forbids all links forbids those merges
as well that would be movements with other items for the same words.
-/

namespace MinimalistGrammar

open MinimalistGrammar.Sat
open MinimalistGrammar.Sat.Builder

/-- No item has a licensee where another that is pronounced alike has its selectee. -/
def Lexicon.KeepsLicenseesApart (lex : Lexicon) : Prop :=
  ∀ item ∈ lex.items, ∀ item' ∈ lex.items, item'.form = item.form →
    ∀ x ∈ item.features.zip item'.features, x.1.polarity = .selectee → x.2.polarity ≠ .licensee

instance (lex : Lexicon) : Decidable lex.KeepsLicenseesApart := inferInstanceAs (Decidable (∀ _ ∈ _, _))

namespace Derivation

variable (d : Derivation) (lex : Lexicon)

/-- Some item that is pronounced like the leaf has a feature of the polarity there. -/
def MayHave (r : FeatureRef) (polarity : Polarity) : Prop :=
  ∃ leaf item f, d.leaf? r.leaf = some leaf ∧ (item ∈ lex.items ∧ item.form = leaf.form) ∧
    item.feature? r.index = some f ∧ f.polarity = polarity

/-- The check would be a movement with some other items that are pronounced alike, or is one. -/
def MayMove (c : Check) : Prop := d.MayHave lex c.trigger .licensor ∧ d.MayHave lex c.target .licensee

end Derivation

namespace Selection

/-- The number of a slot's leaf in the derivation. -/
def leafOf (sel : Selection) (slot : SlotId) : LeafId := ((sel.tree.map Tree.leaves).getD []).idxOf slot

/-- The check of two points, as the derivation has it. -/
def checkAt (sel : Selection) (x y : PointId) : Check :=
  ⟨(sel.featureRef x).rename sel.leafOf, (sel.featureRef y).rename sel.leafOf⟩

variable {sel : Selection} {d : Derivation} {place : SlotId → LeafId} {points : List PointId} {p x y z : PointId}
  {f k : Feature} {slot : SlotId} {item : Item} {polarity : Polarity}

theorem eq_of_leafOf_eq {slot' : SlotId} (hf : sel.IsFilled) (hd : sel.IsDerivation) (hi : sel.item? slot = some item)
    (he : sel.leafOf slot = sel.leafOf slot') : slot = slot' := by
  obtain ⟨t, ht, hb⟩ := hd.exists_tree hf
  rw [leafOf, leafOf, ht] at he
  exact (List.idxOf_inj ((mem_leaves_root hf hd hb).2 ⟨item, hi⟩)).1 he

theorem licensee_of_mayCarry (hf : sel.IsFilled) (hlex : sel.schema.lexicon.KeepsLicenseesApart)
    (hy : sel.Carries y k) (ht : k.polarity.isTarget = true) (hmay : sel.schema.MayCarry y f)
    (hl : f.polarity = .licensee) : k.polarity = .licensee := by
  by_contra hk
  obtain ⟨_, item, hi, hfeat⟩ := carries_iff.1 hy
  obtain ⟨c, hc, hfeat'⟩ := hmay
  have hslot := hf.item_lt hi
  obtain ⟨hitem, hform⟩ := (hf.built.mem_candidates hslot).1 (hf.mem_candidates _ _ hi)
  obtain ⟨hitem', hform'⟩ := (hf.built.mem_candidates hslot).1 (List.mem_map_of_mem hc)
  have hzip : (item.features.zip c.2.features)[(sel.schema.point y).index]? = some (k, f) :=
    List.getElem?_zip_eq_some.2 ⟨hfeat, hfeat'⟩
  exact hlex item hitem c.2 hitem' (hform'.trans hform.symm) _ (List.mem_of_getElem? hzip)
    (Polarity.eq_selectee_of_isTarget ht hk) hl

namespace Numbered

section Leaves

variable (hf : sel.IsFilled) (hd : sel.IsDerivation) (hder : sel.derivation = .ok d) (h : sel.Numbered d place points)
include hf hd hder h

theorem place_eq (hi : sel.item? slot = some item) : place slot = sel.leafOf slot := by
  obtain ⟨t, ht, hb⟩ := hd.exists_tree hf
  have hleaves : t.leaves.map place = t.leaves.map t.leaves.idxOf := by
    rw [← Tree.leaves_relabel, ← Tree.leaves_relabel, ← h.tree t ht, tree_eq_relabel hf hd hder ht]
  rw [leafOf, ht]
  exact List.map_inj_left.1 hleaves slot ((mem_leaves_root hf hd hb).2 ⟨item, hi⟩)

theorem rename_featureRef (hx : sel.Carries x f) :
    (sel.featureRef x).rename place = (sel.featureRef x).rename sel.leafOf := by
  obtain ⟨item, hi⟩ := hx.exists_item
  exact congrArg₂ FeatureRef.mk (h.place_eq hf hd hder hi) rfl

theorem eq_of_rename_eq (hx : sel.Carries x f) (hz : z < sel.schema.pointCount)
    (he : (sel.featureRef z).rename sel.leafOf = (sel.featureRef x).rename place) : z = x := by
  obtain ⟨item, hi⟩ := hx.exists_item
  rw [h.rename_featureRef hf hd hder hx] at he
  obtain ⟨hleaf, hindex⟩ := FeatureRef.mk.inj he
  exact hf.built.point_eq hz hx.1 (eq_of_leafOf_eq hf hd hi hleaf.symm).symm hindex

variable (hx : x < sel.schema.pointCount) (hy : y < sel.schema.pointCount)
include hx hy

theorem exists_checksAt_iff : (∃ i, d.ChecksAt i (sel.checkAt x y)) ↔ (x, y) ∈ sel.links := by
  constructor
  · rintro ⟨i, hc⟩
    obtain ⟨_, x', y', _, _, _, hp, he⟩ := h.exists_projects_of_checksAt hc
    obtain ⟨htrigger, htarget⟩ := Check.mk.inj he
    rw [h.eq_of_rename_eq hf hd hder hp.trigger hx htrigger, h.eq_of_rename_eq hf hd hder hp.target hy htarget]
    exact hp.link
  · intro hl
    obtain ⟨p, _, _, hp⟩ := exists_projects_of_link hf hd.toIsMatching hl
    refine ⟨points.idxOf p, ?_⟩
    rw [checkAt, ← h.rename_featureRef hf hd hder hp.trigger, ← h.rename_featureRef hf hd hder hp.target]
    exact h.checksAt hf hd.toIsMatching hp

theorem exists_movesAt_iff :
    (∃ i, d.MovesAt i (sel.checkAt x y)) ↔ (x, y) ∈ sel.links ∧ y ∈ sel.landings := by
  constructor
  · rintro ⟨i, hc⟩
    obtain ⟨_, x', y', _, k, _, hp, hk, he⟩ := h.exists_projects_of_movesAt hc
    obtain ⟨htrigger, htarget⟩ := Check.mk.inj he
    rw [h.eq_of_rename_eq hf hd hder hp.trigger hx htrigger, h.eq_of_rename_eq hf hd hder hp.target hy htarget]
    exact ⟨hp.link, mem_landings.2 ⟨k, hp.target, hk⟩⟩
  · rintro ⟨hl, hland⟩
    obtain ⟨p, _, k, hp⟩ := exists_projects_of_link hf hd.toIsMatching hl
    obtain ⟨k', hk', hpol⟩ := mem_landings.1 hland
    refine ⟨points.idxOf p, ?_⟩
    rw [checkAt, ← h.rename_featureRef hf hd hder hp.trigger, ← h.rename_featureRef hf hd hder hp.target]
    exact h.movesAt hf hd.toIsMatching hp (hp.target.unique hk' ▸ hpol)

end Leaves

section Possible

variable (hf : sel.IsFilled) (h : sel.Numbered d place points)
include hf h

theorem mayHave_iff (hx : sel.Carries x f) : d.MayHave sel.schema.lexicon ((sel.featureRef x).rename place) polarity ↔
    ∃ g, sel.schema.MayCarry x g ∧ g.polarity = polarity := by
  obtain ⟨item, hi⟩ := hx.exists_item
  obtain ⟨leaf, hleaf⟩ := leaf?_eq_some hi
  have hform := (leaf?_spec hf hleaf).1
  rw [← h.leaf? _ item hi] at hleaf
  have hcandidates : ∀ item', item' ∈ (sel.schema.candidates (sel.schema.slotOf x)).map (·.2) ↔
      item' ∈ sel.schema.lexicon.items ∧ item'.form = sel.schema.words[sel.schema.slotOf x]? := fun _ =>
    hf.built.mem_candidates (hf.item_lt hi)
  constructor
  · rintro ⟨leaf', item', g, hleaf', ⟨hitem, hform'⟩, hfeat, hpol⟩
    rw [FeatureRef.rename, featureRef, hleaf, Option.some.injEq] at hleaf'
    subst hleaf'
    obtain ⟨c, hc, rfl⟩ := List.mem_map.1 ((hcandidates item').2 ⟨hitem, hform'.trans hform⟩)
    exact ⟨g, ⟨c, hc, hfeat⟩, hpol⟩
  · rintro ⟨g, ⟨c, hc, hfeat⟩, hpol⟩
    obtain ⟨hitem, hform'⟩ := (hcandidates c.2).1 (List.mem_map_of_mem hc)
    exact ⟨leaf, c.2, g, hleaf, ⟨hitem, hform'.trans hform.symm⟩, hfeat, hpol⟩

theorem mayMove_iff (hp : sel.Projects p x y f k) : d.MayMove sel.schema.lexicon
    ⟨(sel.featureRef x).rename place, (sel.featureRef y).rename place⟩ ↔ sel.schema.MayAttract x y :=
  and_congr (h.mayHave_iff hf hp.trigger) (h.mayHave_iff hf hp.target)

variable (hm : sel.IsMatching)
include hm

theorem forall_not_mayMove_iff : (∀ i c, d.ChecksAt i c → ¬d.MayMove sel.schema.lexicon c) ↔
    ∀ x y, (x, y) ∈ sel.links → ¬sel.schema.MayAttract x y := by
  constructor
  · intro hnone x y hl
    obtain ⟨p, f, k, hp⟩ := exists_projects_of_link hf hm hl
    rw [← h.mayMove_iff hf hp]
    exact hnone _ _ (h.checksAt hf hm hp)
  · intro hnone i c hc
    obtain ⟨p, x, y, f, k, _, hp, rfl⟩ := h.exists_projects_of_checksAt hc
    rw [h.mayMove_iff hf hp]
    exact hnone x y hp.link

theorem forall_not_movesAt_iff (hlex : sel.schema.lexicon.KeepsLicenseesApart) : (∀ i c, ¬d.MovesAt i c) ↔
    ∀ x y, (x, y) ∈ sel.links → ¬sel.schema.MayAttract x y := by
  constructor
  · rintro hnone x y hl ⟨_, g, hg, hpol⟩
    obtain ⟨p, f, k, hp⟩ := exists_projects_of_link hf hm hl
    exact hnone _ _ (h.movesAt hf hm hp
      (licensee_of_mayCarry hf hlex hp.target (isTarget_of_checks hp.checks) hg hpol))
  · intro hnone i c hc
    obtain ⟨p, x, y, f, k, _, hp, hk, rfl⟩ := h.exists_projects_of_movesAt hc
    exact hnone x y hp.link ⟨⟨f, Lexical.mayCarry_of_carries hf.mem_candidates hp.trigger,
      (licensor_iff_of_checks hp.checks).2 hk⟩, k, Lexical.mayCarry_of_carries hf.mem_candidates hp.target, hk⟩

end Possible

end Numbered

end Selection

namespace Grammar

variable {lex : Lexicon} {options : ParseOptions} {c : Condition} {l : LocalityPolicy} {p : Problem} {a : Assignment}
  {d : Derivation} {sel : Selection} {m : Movement}

theorem Selects.lexicon_eq (h : (Grammar.mk lex options l).Selects c p sel)
    (hp : (Grammar.mk lex options l).prepare c = .ok p) : sel.schema.lexicon = lex := by
  obtain ⟨_, ⟨hlex, _⟩, _⟩ := Schema.build_eq_ok_iff.1 (isPrepared_of_prepare hp).schema
  rw [h.isOffered.schema, hlex]

theorem derives_frozen_iff : (Grammar.mk lex options .frozen).Derives c d ↔
    (Grammar.mk lex options .unconstrained).Derives c d ∧ ∀ i ch, d.ChecksAt i ch → ¬d.MayMove lex ch := by
  refine derives_iff_and LocalityPolicy.expresses_frozen fun hp h hder => ?_
  have hf := h.isFilled (isPrepared_of_prepare hp)
  obtain ⟨_, _, hn⟩ := h.isDerivation.exists_numbered hf hder
  rw [← h.lexicon_eq hp]
  exact hn.forall_not_mayMove_iff hf h.isDerivation.toIsMatching

theorem derives_frozen_iff_of_apart (hlex : lex.KeepsLicenseesApart) : (Grammar.mk lex options .frozen).Derives c d ↔
    (Grammar.mk lex options .unconstrained).Derives c d ∧ ∀ i ch, ¬d.MovesAt i ch := by
  refine derives_iff_and LocalityPolicy.expresses_frozen fun hp h hder => ?_
  have hf := h.isFilled (isPrepared_of_prepare hp)
  obtain ⟨_, _, hn⟩ := h.isDerivation.exists_numbered hf hder
  rw [← h.lexicon_eq hp] at hlex
  exact hn.forall_not_movesAt_iff hf h.isDerivation.toIsMatching hlex

/-- Of each possible movement the link says whether the check takes place, and if it does, it is a movement exactly when
the item that is chosen has a licensee there. Forbidding all links leaves the derivations in which no check may be a
movement; these are the ones without movement if items keep their licensees apart. -/
theorem link_iff_checksAt (lex : Lexicon) (options : ParseOptions) (c : Condition) :
    (∀ l p a, LocalityPolicy.OnlyAdds l → (Grammar.mk lex options l).prepare c = .ok p → p.formula.Holds a →
      ∃ sel d, Selection.ofAssignment p.schema p.encoding a = .ok sel ∧ p.extract a = .ok d ∧
        ∀ m ∈ p.encoding.movements,
          (m.link.value a = true ↔ ∃ i, d.ChecksAt i (sel.checkAt m.checker m.landing)) ∧
          ((∃ i, d.MovesAt i (sel.checkAt m.checker m.landing)) ↔
            m.link.value a = true ∧ m.landing ∈ sel.landings) ∧
          (lex.KeepsLicenseesApart →
            (m.link.value a = true ↔ ∃ i, d.MovesAt i (sel.checkAt m.checker m.landing)))) ∧
    (∀ d, (Grammar.mk lex options .frozen).Derives c d ↔
      (Grammar.mk lex options .unconstrained).Derives c d ∧ ∀ i ch, d.ChecksAt i ch → ¬d.MayMove lex ch) ∧
    (lex.KeepsLicenseesApart → ∀ d, (Grammar.mk lex options .frozen).Derives c d ↔
      (Grammar.mk lex options .unconstrained).Derives c d ∧ ∀ i ch, ¬d.MovesAt i ch) := by
  refine ⟨fun l p a hl hp ha => ?_, fun d => derives_frozen_iff, fun hlex d => derives_frozen_iff_of_apart hlex⟩
  obtain ⟨sel, v, h, ⟨_, rfl⟩, henc, _⟩ := exists_described hl (isPrepared_of_prepare hp) ha
  have hsel := Encoding.ofAssignment_eq (isPrepared_of_prepare hp).isBuilt h.isOffered henc
  obtain ⟨d, hder, hd⟩ := h.extract (isPrepared_of_prepare hp) hsel
  refine ⟨sel, d, hsel, hd, fun m hm => ?_⟩
  rw [henc.movements] at hm
  have hf := h.isFilled (isPrepared_of_prepare hp)
  obtain ⟨_, _, hn⟩ := h.isDerivation.exists_numbered hf hder
  have hlink := (Movement.denotes_link henc.checking hm).2
  obtain ⟨hy, hcheckers, _⟩ := Movement.of_mem_all hm
  have hx := (Schema.mem_linkPairs.1 (henc.checking.mem_checkersOf hy hcheckers).1).1.1
  have hchecks := hn.exists_checksAt_iff hf h.isDerivation hder hx hy
  have hmoves := hn.exists_movesAt_iff hf h.isDerivation hder hx hy
  refine ⟨hlink.trans hchecks.symm, hmoves.trans (and_congr_left fun _ => hlink.symm), fun hlex => ?_⟩
  rw [hlink, hmoves]
  refine (and_iff_left_of_imp fun hl => ?_).symm
  obtain ⟨_, k, hg, hpol⟩ := Movement.mayAttract_of_mem_all henc.lexical henc.checking hm
  obtain ⟨_, k', _, hk', hc⟩ := h.isDerivation.toIsMatching.carries_of_link hf hl
  rw [← h.lexicon_eq hp] at hlex
  exact Selection.mem_landings.2 ⟨k', hk',
    Selection.licensee_of_mayCarry hf hlex hk' (Selection.isTarget_of_checks hc) hg hpol⟩

/-- A complementizer that attracts a topic. -/
def topics : Lexicon := ⟨[
  ⟨"that", [⟨"V", .selector, false⟩, ⟨"top", .licensor, false⟩, ⟨"C", .category, false⟩],
    some "that", none, by decide, by decide +kernel⟩,
  ⟨"rains", [⟨"D", .selector, false⟩, ⟨"V", .selectee, false⟩],
    some "rains", none, by decide, isForm_rains⟩,
  ⟨"it", [⟨"D", .selectee, false⟩, ⟨"top", .licensee, false⟩],
    some "it", none, by decide, by decide +kernel⟩],
  by decide, by decide⟩

def topicFirst : Condition := { sentence := some ["it", "that", "rains"] }

theorem link_iff_checksAt_topicFirst : LocalityPolicy.unconstrained.OnlyAdds ∧ topics.KeepsLicenseesApart ∧
    ∃ p sel d m, (Grammar.mk topics { bounds := ⟨0, 1, 0⟩ } .unconstrained).prepare topicFirst = .ok p ∧
      p.formula.Holds (· ∉ [19, 21, 23]) ∧
      Selection.ofAssignment p.schema p.encoding (· ∉ [19, 21, 23]) = .ok sel ∧ p.extract (· ∉ [19, 21, 23]) = .ok d ∧
      m ∈ p.encoding.movements ∧ (m.link.value (· ∉ [19, 21, 23]) = true ∧
        ∃ i, d.MovesAt i (sel.checkAt m.checker m.landing)) ∧
      ¬(Grammar.mk topics { bounds := ⟨0, 1, 0⟩ } .frozen).Derives topicFirst d := by
  have hadds : LocalityPolicy.unconstrained.OnlyAdds := fun _ _ => (adds_pure _).grows
  have hapart : topics.KeepsLicenseesApart := by decide +kernel
  have hall : ((Grammar.mk topics { bounds := ⟨0, 1, 0⟩ } .unconstrained).prepare topicFirst).toOption.any (fun p =>
      decide (p.formula.Holds (· ∉ [19, 21, 23])) &&
        p.encoding.movements.any fun m => m.link.value (· ∉ [19, 21, 23])) = true := by decide +kernel
  obtain ⟨p, hp, h⟩ := Fallible.exists_of_any hall
  obtain ⟨hholds, hlink⟩ := Bool.and_eq_true_iff.1 h
  obtain ⟨m, hm, hlink⟩ := List.any_eq_true.1 hlink
  have hholds := of_decide_eq_true hholds
  obtain ⟨hlinks, _, hfrozen⟩ := link_iff_checksAt topics { bounds := ⟨0, 1, 0⟩ } topicFirst
  obtain ⟨sel, d, hsel, hd, hlinks⟩ := hlinks _ p _ hadds hp hholds
  obtain ⟨i, hmoves⟩ := ((hlinks m hm).2.2 hapart).1 hlink
  refine ⟨hadds, hapart, p, sel, d, m, hp, hholds, hsel, hd, hm, ⟨hlink, i, hmoves⟩, fun hder => ?_⟩
  exact ((hfrozen hapart d).1 hder).2 i _ hmoves

/-- The verb has a second argument or attracts a phrase, and the word for that phrase has two readings as well. -/
def homophones : Lexicon := ⟨[
  ⟨"v1", [⟨"D", .selector, false⟩, ⟨"N", .selector, false⟩, ⟨"C", .category, false⟩],
    some "v", none, by decide, by decide +kernel⟩,
  ⟨"v2", [⟨"D", .selector, false⟩, ⟨"k", .licensor, false⟩, ⟨"C", .category, false⟩],
    some "v", none, by decide, by decide +kernel⟩,
  ⟨"w1", [⟨"D", .selector, false⟩, ⟨"N", .selectee, false⟩],
    some "w", none, by decide, by decide +kernel⟩,
  ⟨"w2", [⟨"M", .selectee, false⟩, ⟨"k", .licensee, false⟩],
    some "w", none, by decide, by decide +kernel⟩,
  ⟨"d", [⟨"D", .selectee, false⟩],
    some "d", none, isFeatureSequence_selectee "D", by decide +kernel⟩], by decide, by decide⟩

def twoArguments : Condition := { sentence := some ["w", "d", "v", "d"] }

/-- The verb with both arguments merged. -/
def twoMerges : Derivation where
  leaves := [
    ⟨"v1", some "v", none, [⟨"D", .selector, false⟩, ⟨"N", .selector, false⟩, ⟨"C", .category, false⟩], some 2⟩,
    ⟨"d", some "d", none, [⟨"D", .selectee, false⟩], some 3⟩,
    ⟨"w1", some "w", none, [⟨"D", .selector, false⟩, ⟨"N", .selectee, false⟩], some 0⟩,
    ⟨"d", some "d", none, [⟨"D", .selectee, false⟩], some 1⟩]
  nodes := [
    ⟨.merge 1 4 ⟨⟨0, 1⟩, ⟨2, 1⟩⟩, 0, 2⟩,
    ⟨.merge 2 3 ⟨⟨0, 0⟩, ⟨1, 0⟩⟩, 0, 1⟩, ⟨.lexical 0, 0, 0⟩, ⟨.lexical 1, 1, 0⟩,
    ⟨.merge 5 6 ⟨⟨2, 0⟩, ⟨3, 0⟩⟩, 2, 1⟩, ⟨.lexical 2, 2, 0⟩, ⟨.lexical 3, 3, 0⟩]

/-- Nothing moves, but the link of a possible movement is true, and the derivation is lost when movement is forbidden. -/
theorem exists_link_without_movement : ∃ p a m,
    (Grammar.mk homophones { bounds := ⟨0, 1, 0⟩ } .unconstrained).prepare twoArguments = .ok p ∧ p.formula.Holds a ∧
      p.extract a = .ok twoMerges ∧ (m ∈ p.encoding.movements ∧ m.link.value a = true) ∧
      (∀ i ch, ¬twoMerges.MovesAt i ch) ∧
      (Grammar.mk homophones { bounds := ⟨0, 1, 0⟩ } .unconstrained).Derives twoArguments twoMerges ∧
      ¬(Grammar.mk homophones { bounds := ⟨0, 1, 0⟩ } .frozen).Derives twoArguments twoMerges := by
  have hall : ((Grammar.mk homophones { bounds := ⟨0, 1, 0⟩ } .unconstrained).prepare twoArguments).toOption.any (fun p =>
      (decide (p.formula.Holds (· ∉ [2, 5, 15, 16, 23, 28, 34, 38])) &&
        (p.extract (· ∉ [2, 5, 15, 16, 23, 28, 34, 38])).toOption.any (· = twoMerges)) &&
          p.encoding.movements.any fun m => m.link.value (· ∉ [2, 5, 15, 16, 23, 28, 34, 38])) = true := by decide +kernel
  obtain ⟨p, hp, h⟩ := Fallible.exists_of_any hall
  obtain ⟨h, hlink⟩ := Bool.and_eq_true_iff.1 h
  obtain ⟨hholds, hd⟩ := Bool.and_eq_true_iff.1 h
  obtain ⟨m, hm, hlink⟩ := List.any_eq_true.1 hlink
  obtain ⟨_, hd, he⟩ := Fallible.exists_of_any hd
  obtain rfl := of_decide_eq_true he
  have hholds := of_decide_eq_true hholds
  refine ⟨p, _, m, hp, hholds, hd, ⟨hm, hlink⟩, ?_, ⟨p, _, hp, hholds, hd⟩, fun hfrozen => ?_⟩
  · rintro i ch ⟨n, h, m, hn, ho⟩
    have hnodes : ∀ n ∈ twoMerges.nodes, n.operation.isMove = false := by decide
    have hmerge := hnodes n (List.mem_of_getElem? hn)
    rw [ho] at hmerge
    cases hmerge
  · -- the second merge would be a movement with the other two items
    have hchecks : twoMerges.ChecksAt 0 ⟨⟨0, 1⟩, ⟨2, 1⟩⟩ := ⟨_, rfl, rfl⟩
    refine (derives_frozen_iff.1 hfrozen).2 _ _ hchecks ⟨?_, ?_⟩
    · exact ⟨_, homophones.items[1], _, rfl, ⟨.tail _ (.head _), rfl⟩, rfl, rfl⟩
    · exact ⟨_, homophones.items[3], _, rfl, ⟨.tail _ (.tail _ (.tail _ (.head _))), rfl⟩, rfl, rfl⟩

end Grammar

end MinimalistGrammar
