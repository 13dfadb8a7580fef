import MinimalistGrammar.Proofs.Derivation.Text
import MinimalistGrammar.Proofs.Selection.Validity

/-!
The features of an item are used up in order. What moves is checked by its first licensee that is left, so the tree of
a derivation says with its leaves which features are checked where.
-/

open Relation

namespace MinimalistGrammar

namespace Selection

variable {sel : Selection} {p q r x y z : PointId} {f g k : Feature} {t : Tree} {d : Derivation} {points : List PointId}
  {place : SlotId → LeafId}

theorem index_lt_of_licensee (hz : sel.HasPhrase z) (hy : sel.Carries y k) (hk : k.polarity = .licensee)
    (hs : sel.schema.slotOf z = sel.schema.slotOf y) : (sel.schema.point z).index < (sel.schema.point y).index := by
  obtain ⟨g, hg, hl⟩ := hz
  obtain ⟨_, item, hitem, hfeat⟩ := carries_iff.1 hg
  obtain ⟨_, item', hitem', hfeat'⟩ := carries_iff.1 hy
  rw [← hs, hitem, Option.some.injEq] at hitem'
  subst hitem'
  have hcat := (Item.licensee_iff hfeat').1 hk
  have hz := (Item.licensee_iff hfeat).not.1 hl
  omega

section Licensing

variable (hf : sel.IsFilled) (hd : sel.IsDerivation)
include hf hd

theorem transGen_of_licensee (hy : sel.Carries y k) (hk : k.polarity = .licensee) (hr : sel.Step y r)
    (hq : sel.Carries q f) (hs : sel.schema.slotOf q = sel.schema.slotOf y)
    (hi : (sel.schema.point q).index < (sel.schema.point y).index) : TransGen sel.Step q r := by
  -- by the index of the licensee, through the target before it
  induction hn : (sel.schema.point y).index generalizing y k r with
  | zero => omega
  | succ n ih =>
    obtain ⟨b, g, hb, hg, _⟩ := hf.predecessor_of_licensee hy hk
    obtain ⟨hblt, hsucc⟩ := (hf.built.predecessor_eq_some hy.1).1 hb
    obtain ⟨_, hslot, hindex⟩ := hf.slotOf_successor hsucc
    have hup := transGen_of_moveOn hf hd hblt hsucc (mem_landings.2 ⟨k, hy, hk⟩) hr
    rcases Nat.lt_or_ge (sel.schema.point q).index (sel.schema.point b).index with hlt | hge
    · by_cases hl : g.polarity = .licensee
      · obtain ⟨c, hc, hrest⟩ := TransGen.head'_iff.1 hup
        exact (ih hg hl hc (hs.trans hslot) hlt (by omega)).trans_left hrest
      · exact (transGen_of_index_lt hf hq ⟨g, hg, hl⟩ (hs.trans hslot) hlt).trans hup
    · rwa [hf.built.point_eq hq.1 hblt (hs.trans hslot) (by omega)]

theorem Projects.slotOf_ne (hp : sel.Projects p x y f k) (hk : k.polarity = .licensee) :
    sel.schema.slotOf x ≠ sel.schema.slotOf y := by
  intro he
  have hphrase : sel.HasPhrase p := hp.carries hf
  obtain ⟨g, hg, _⟩ := hp.carries hf
  have hs : sel.schema.slotOf p = sel.schema.slotOf y := (hf.slotOf_successor hp.successor).2.1.trans he
  exact hd.isAcyclic p (transGen_of_licensee hf hd hp.target hk (hp.step_target hd.toIsMatching) hg hs
    (index_lt_of_licensee hphrase hp.target hk hs))

/-- A phrase has used up the features of what moves next that come before the licensee, and no others. -/
theorem Projects.transGen_iff_index_lt (hp : sel.Projects p x y f k) (hk : k.polarity = .licensee)
    (hq : sel.Carries q g) (hs : sel.schema.slotOf q = sel.schema.slotOf y) :
    TransGen sel.Step q x ↔ (sel.schema.point q).index < (sel.schema.point y).index := by
  have hm := hd.toIsMatching
  constructor
  · intro h
    by_contra hge
    -- from the licensee one comes to its landing, which cannot be below the head
    have hup : TransGen sel.Step y x := by
      rcases Nat.lt_or_ge (sel.schema.point y).index (sel.schema.point q).index with hlt | hle
      · obtain ⟨c, hc, hrest⟩ := TransGen.head'_iff.1 h
        have hql : g.polarity = .licensee := by
          by_contra hl
          have := index_lt_of_licensee ⟨g, hq, hl⟩ hp.target hk hs
          omega
        exact (transGen_of_licensee hf hd hq hql hc hp.target hs.symm hlt).trans_left hrest
      · rwa [hf.built.point_eq hp.target.1 hq.1 hs.symm (by omega)]
    obtain ⟨c, hc, hrest⟩ := TransGen.head'_iff.1 hup
    rw [hc.unique (hp.step_target hm)] at hrest
    exact hd.isAcyclic p (TransGen.tail' hrest hp.step_trigger)
  · intro hlt
    have hup := transGen_of_licensee hf hd hp.target hk (hp.step_target hm) hq hs hlt
    rcases (hp.transGen_iff hf hm hq.1).1 hup with h | h
    · rcases reflTransGen_iff_eq_or_transGen.1 h with rfl | h
      · exact absurd hs (hp.slotOf_ne hf hd hk)
      · exact h
    · rcases reflTransGen_iff_eq_or_transGen.1 h with rfl | h
      · omega
      · exact absurd h (not_transGen_of_licensee hf hm hp.target hk hq.1)

theorem Builds.spentBy_eq (h : sel.Builds x t) (hp : sel.Projects p x y f k) (hk : k.polarity = .licensee) :
    t.spentBy (sel.schema.slotOf y) = (sel.schema.point y).index := by
  have hperm : (t.spent.filter fun r => r.leaf = sel.schema.slotOf y).Perm
      ((List.range (sel.schema.point y).index).map fun i => ⟨sel.schema.slotOf y, i⟩) := by
    refine (List.perm_ext_iff_of_nodup ((h.nodup_spent hf hd).filter _)
      (List.nodup_range.map fun _ _ he => congrArg FeatureRef.index he)).2 fun r => ?_
    rw [List.mem_filter, h.mem_spent hf hd.toIsMatching, decide_eq_true_iff, List.mem_map]
    constructor
    · rintro ⟨⟨q, ⟨g, hq⟩, hup, rfl⟩, hs⟩
      exact ⟨_, List.mem_range.2 ((hp.transGen_iff_index_lt hf hd hk hq hs).1 hup), by rw [← hs]; rfl⟩
    · rintro ⟨i, hi, rfl⟩
      have hlt := List.mem_range.1 hi
      obtain ⟨_, item, hitem, hfeat⟩ := carries_iff.1 hp.target
      obtain ⟨g, hg⟩ := Item.exists_feature? (Nat.lt_trans hlt (Item.lt_length_of_feature? hfeat))
      obtain ⟨q, hpoint, hq⟩ := hf.exists_carries hitem hg
      have hpoint := (hf.built.pointAt?_eq_some.1 hpoint).2
      have hs : sel.schema.slotOf q = sel.schema.slotOf y := by rw [Schema.slotOf, hpoint]
      have hindex : (sel.schema.point q).index = i := by rw [hpoint]
      refine ⟨⟨q, ⟨g, hq⟩, (hp.transGen_iff_index_lt hf hd hk hq hs).2 (hindex.symm ▸ hlt), ?_⟩, rfl⟩
      rw [featureRef, hs, hindex]
  rw [Tree.spentBy, List.countP_eq_length_filter, hperm.length_eq, List.length_map, List.length_range]

/-- The tree of the derivation is licensed by the features of its leaves. -/
theorem Builds.licenses (hnum : sel.Numbered d place points) (h : sel.Builds p t) : d.Licenses (t.relabel place) := by
  have hm := hd.toIsMatching
  have next : ∀ {p t}, sel.Builds p t →
      (⟨(t.relabel place).head, (t.relabel place).index⟩ : FeatureRef) = (sel.featureRef p).rename place := by
    intro p t hb
    rw [Tree.head_relabel, Tree.index_relabel, hb.head_eq hf, hb.index_eq hf]
    rfl
  induction h with
  | lexical _ _ => exact .lexical _
  | @merge p x y f k h a hp hk hh ha ihh iha =>
    have hsel : f.polarity = .selector := by
      have hlic := (licensor_iff_of_checks hp.checks).not.2 hk
      have ht := isTrigger_of_checks hp.checks
      cases hpol : f.polarity <;> simp [hpol, Polarity.isTrigger] at hlic ht ⊢
    have hl := Derivation.Licenses.merge ihh iha (by rw [next hh]; exact hnum.feature?_featureRef hp.trigger) hsel
    rwa [next hh, next ha] at hl
  | @move p x y f k h hp hk hh ih =>
    have hlic := (licensor_iff_of_checks hp.checks).2 hk
    have hmoves : f.movesHead = false := by
      by_contra hmoves
      rw [(hf.index_eq_zero_of_movesHead hp.trigger (by simpa using hmoves)).2] at hlic
      cases hlic
    -- the host has spent all features of the mover that come before the licensee
    have hspent : (h.relabel place).spentBy (place (sel.schema.slotOf y)) = (sel.schema.point y).index := by
      rw [← hh.spentBy_eq hf hd hp hk, Tree.spentBy, Tree.spent_relabel, List.countP_map]
      refine List.countP_congr fun r _ => ?_
      simp [FeatureRef.rename, hnum.injective.eq_iff]
    -- the first of them stands below the licensor, so the mover is among the leaves of the host
    have hinside : sel.schema.slotOf y ∈ h.leaves := by
      obtain ⟨_, item, hitem, hfeat⟩ := carries_iff.1 hp.target
      obtain ⟨g, hg, _⟩ := hf.carries_lexicalPoint hitem
      have hs := hf.item_lt hitem
      refine (hh.mem_leaves hf hm).2 ⟨⟨item, hitem⟩, TransGen.to_reflTransGen ?_⟩
      refine (hp.transGen_iff_index_lt hf hd hk hg (hf.built.slotOf_lexicalPoint hs)).2 ?_
      rw [hf.built.point_lexicalPoint hs]
      exact Nat.zero_lt_of_lt ((Item.licensee_iff hfeat).1 hk)
    have hl := Derivation.Licenses.move ih (by rw [next hh]; exact hnum.feature?_featureRef hp.trigger) hlic hmoves
      (by rw [Tree.leaves_relabel]; exact List.mem_map_of_mem hinside)
      (by rw [hspent]; exact hnum.feature?_featureRef hp.target) hk
    rwa [next hh, hspent] at hl

end Licensing

end Selection

namespace Derivation

/-- A derivation from items of a lexicon: the leaves are numbered as the tree has them, and license the tree. -/
structure IsOver (lex : Lexicon) (d : Derivation) : Prop where
  preorder : d.IsPreorder
  leaves : d.tree.leaves = List.range d.leaves.length
  licenses : d.Licenses d.tree
  item : ∀ l ∈ d.leaves, ∃ item ∈ lex.items, l = ⟨item.label, item.form, item.meaning, item.features, l.position⟩

end Derivation

namespace Selection

variable {sel : Selection} {d : Derivation} {slot : SlotId} {item : Item}

theorem mem_items_of_item? (hf : sel.IsFilled) (h : sel.item? slot = some item) :
    item ∈ sel.schema.lexicon.items := by
  obtain ⟨c, hc, rfl⟩ := List.mem_map.1 (hf.mem_candidates slot item h)
  rw [← Lexicon.map_toList]
  refine List.mem_map_of_mem ?_
  by_cases hl : slot < sel.schema.words.length
  · rw [hf.built.candidates_of_lt hl] at hc
    exact List.mem_of_mem_filter hc
  · rw [hf.built.candidates_of_le (Nat.le_of_not_lt hl) (Schema.lt_slotCount hc)] at hc
    exact List.mem_of_mem_filter hc

theorem IsDerivation.isOver (hf : sel.IsFilled) (hd : sel.IsDerivation) (hder : sel.derivation = .ok d) :
    d.IsOver sel.schema.lexicon := by
  obtain ⟨place, points, hnum⟩ := hd.exists_numbered hf hder
  obtain ⟨t, ht, hleaves, _⟩ := (derivation_eq_ok hf hd).1 hder
  have htree := tree_eq_relabel hf hd hder ht
  have hb := hd.builds_root hf ht
  have hnodup := hb.nodup_leaves hf hd.toIsMatching hd.isAcyclic
  refine ⟨isPreorder_of_derivation hf hd hder, ?_, hnum.tree t ht ▸ hb.licenses hf hd hnum, fun l hl => ?_⟩
  · rw [htree, Tree.leaves_relabel, ← hleaves.length_eq]
    refine List.ext_getElem (by simp) fun i hi _ => ?_
    rw [List.getElem_map, List.getElem_range, hnodup.idxOf_getElem]
  · obtain ⟨i, hi, rfl⟩ := List.getElem_of_mem hl
    have hslot := hleaves.get (hleaves.length_eq ▸ hi) hi
    rw [List.get_eq_getElem, List.get_eq_getElem] at hslot
    obtain ⟨item, hitem, hleaf⟩ := Option.map_eq_some_iff.1 hslot
    exact ⟨item, mem_items_of_item? hf hitem, by rw [← hleaf]⟩

end Selection

end MinimalistGrammar
