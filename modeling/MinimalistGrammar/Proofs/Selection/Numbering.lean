import MinimalistGrammar.Proofs.Grouping
import MinimalistGrammar.Proofs.Fallible
import MinimalistGrammar.Proofs.Selection.Node

/-!
The numbers that points and slots get. They go by the phrases of the tree, so whatever a node refers to has one, and the
derivation is made of the leaves and nodes of the tree.
-/

open Relation

namespace MinimalistGrammar

namespace Numbering

variable {b : Numbering} {p : PointId} {slot : SlotId}

/-- The points and slots have the next numbers, in order. -/
def extend (points : List PointId) (slots : List SlotId) (b : Numbering) : Numbering where
  nodes := (points.zipIdx b.order.length).reverse ++ b.nodes
  leaves := (slots.zipIdx b.leaves.length).reverse ++ b.leaves
  order := b.order ++ points

theorem extend_empty (points : List PointId) (slots : List SlotId) :
    extend points slots {} = ⟨points.zipIdx.reverse, slots.zipIdx.reverse, points⟩ := by
  simp [extend]

theorem extend_extend (points points' : List PointId) (slots slots' : List SlotId) (b : Numbering) :
    (b.extend points slots).extend points' slots' = b.extend (points ++ points') (slots ++ slots') := by
  simp [extend, List.zipIdx_append, Nat.add_comm]

theorem addNode_eq (p : PointId) (b : Numbering) : b.addNode p = b.extend [p] [] := rfl

theorem addLeaf_eq (h : slot ∉ b.leaves.map (·.1)) : b.addLeaf slot = b.extend [] [slot] := by
  have hnone : b.leaves.lookup slot = none := by
    rw [List.lookup_eq_none_iff]
    exact fun x hx => bne_iff_ne.2 fun he => h (he ▸ List.mem_map_of_mem hx)
  rw [addLeaf, hnone, extend, List.append_nil]
  rfl

theorem keys_extend (points : List PointId) (slots : List SlotId) (b : Numbering) :
    (b.extend points slots).leaves.map (·.1) = slots.reverse ++ b.leaves.map (·.1) := by
  rw [extend, List.map_append, List.map_reverse, List.zipIdx_map_fst]

end Numbering

namespace Selection

variable {sel : Selection} {p x y : PointId} {f k : Feature} {t : Tree} {d : Derivation} {b : Numbering} {n : Nat}
  {place : SlotId → LeafId} {number : PointId → NodeId} {node : Node} {points : List PointId} {slots : List SlotId}
  {leaves : List Leaf}

section Number

variable (hf : sel.IsFilled) (hm : sel.IsMatching)
include hf hm

omit hf hm in
theorem isLanding_eq (hc : sel.Carries p f) : sel.isLanding p = decide (f.polarity = .licensee) := by
  rw [isLanding, hc.2, Option.any_some]

theorem Projects.number_eq (h : sel.Projects p x y f k) : sel.number (n + 1) p b =
    let b := sel.number n x (b.addNode p)
    if k.polarity = .licensee then b else sel.number n y b := by
  have hlexical : (sel.schema.point p).isLexical = false := by
    simp [Point.isLexical, (hf.slotOf_successor h.successor).2.2]
  simp [number, hlexical, h.predecessor hf, hm.partner_eq_some.2 h.link, isLanding_eq h.target]

/-- The phrases at a point are numbered as the tree there has them. -/
theorem Builds.number_eq (ha : sel.IsAcyclic) (h : sel.Builds p t) (hn : t.size ≤ n)
    (hfresh : ∀ slot ∈ t.leaves, slot ∉ b.leaves.map (·.1)) :
    ∃ points, List.Forall₂ sel.Builds points t.phrases ∧ sel.number n p b = b.extend points t.leaves := by
  induction h generalizing n b with
  | @lexical p f hc hnone =>
    refine ⟨[p], .cons (.lexical hc hnone) .nil, ?_⟩
    obtain ⟨n, rfl⟩ := Nat.exists_eq_add_one_of_ne_zero (Nat.ne_of_gt hn)
    have hlexical : (sel.schema.point p).isLexical = true := (Builds.lexical hc hnone).isLexical_iff hf ▸ rfl
    have hslot : sel.schema.slotOf p ∉ (b.extend [p] []).leaves.map (·.1) := hfresh _ (List.mem_singleton_self _)
    rw [number, if_pos hlexical, Numbering.addNode_eq, Numbering.addLeaf_eq hslot, Numbering.extend_extend]
    rfl
  | @merge p x y f k h a hp hk hh hb ihh iha =>
    rw [Tree.size] at hn
    obtain ⟨n, rfl⟩ := Nat.exists_eq_add_of_le' (Nat.le_of_add_left_le hn)
    have hnodup := (Builds.merge hp hk hh hb).nodup_leaves hf hm ha
    rw [Tree.leaves, List.nodup_append] at hnodup
    obtain ⟨ps, hps, hnumber⟩ := ihh (n := n) (b := b.addNode p) (by omega) fun slot hs =>
      hfresh slot (List.mem_append_left _ hs)
    obtain ⟨qs, hqs, hnumber'⟩ := iha (n := n) (b := (b.addNode p).extend ps h.leaves) (by omega) fun slot hs => by
      rw [Numbering.keys_extend, List.mem_append, List.mem_reverse, not_or]
      exact ⟨fun hs' => hnodup.2.2 _ hs' _ hs rfl, hfresh slot (List.mem_append_right _ hs)⟩
    refine ⟨p :: (ps ++ qs), .cons (.merge hp hk hh hb) (List.rel_append hps hqs), ?_⟩
    rw [hp.number_eq hf hm, hnumber]
    dsimp only
    rw [if_neg hk, hnumber', Numbering.addNode_eq, Numbering.extend_extend, Numbering.extend_extend]
    rfl
  | @move p x y f k h hp hk hh ih =>
    rw [Tree.size] at hn
    obtain ⟨n, rfl⟩ := Nat.exists_eq_add_of_le' (Nat.le_of_add_left_le hn)
    obtain ⟨ps, hps, hnumber⟩ := ih (n := n) (b := b.addNode p) (by omega) hfresh
    refine ⟨p :: ps, .cons (.move hp hk hh) hps, ?_⟩
    rw [hp.number_eq hf hm, hnumber]
    dsimp only
    rw [if_pos hk, Numbering.addNode_eq, Numbering.extend_extend]
    rfl

end Number

section Made

/-- Leaves and points have the numbers that are given. -/
structure Numbers (sel : Selection) (b : Numbering) (place : SlotId → LeafId) (number : PointId → NodeId) : Prop where
  leaves : ∀ p f, sel.Carries p f → b.leaves.lookup (sel.schema.slotOf p) = some (place (sel.schema.slotOf p))
  nodes : ∀ p, sel.HasPhrase p → b.nodes.lookup p = some (number p)

variable (h : sel.Numbers b place number)
include h

theorem Numbers.leafFeature_eq (hc : sel.Carries p f) : sel.leafFeature b p = .ok ((sel.featureRef p).rename place) := by
  rw [leafFeature, h.leaves p f hc]
  rfl

theorem Numbers.nodeId_eq (hp : sel.HasPhrase p) : sel.nodeId b p = .ok (number p) := by
  rw [nodeId, h.nodes p hp]
  rfl

omit h in
theorem mover_eq (hf : sel.IsFilled) {z : PointId} {g : Feature} (hz : sel.Carries z g) (hg : g.polarity = .selectee)
    (hs : sel.schema.slotOf z = sel.schema.slotOf y) : sel.mover y = .ok z := by
  obtain ⟨hlt, item, hi, hfeat⟩ := carries_iff.1 hz
  have hindex := Item.eq_categoryIndex hfeat hg
  have hpoint : sel.schema.pointAt? (sel.schema.slotOf y) item.categoryIndex = some z :=
    hf.built.pointAt?_eq_some.2 ⟨hlt, by rw [← hs, ← hindex]; rfl⟩
  rw [mover, ← hs, hi, Option.bind_some, hs, hpoint]
  rfl

theorem Numbers.operation_eq (hp : sel.Projects p x y f k) (hk : k.polarity ≠ .licensee) :
    sel.operation b x y = .ok
      (if f.movesHead then .headMove (number x) (number y)
        ⟨(sel.featureRef x).rename place, (sel.featureRef y).rename place⟩ (place (sel.schema.slotOf y))
      else .merge (number x) (number y) ⟨(sel.featureRef x).rename place, (sel.featureRef y).rename place⟩) := by
  rw [operation, h.leafFeature_eq hp.trigger, h.leafFeature_eq hp.target, isLanding_eq hp.target, hp.trigger.2,
    h.nodeId_eq ⟨f, hp.trigger, hp.ne_licensee⟩, h.nodeId_eq ⟨k, hp.target, hk⟩]
  simp only [hk, decide_false, Option.any_some, Fallible.ok_bind, Bool.false_eq_true, if_false]
  split <;> rfl

/-- A node is made as its point has it. -/
theorem Numbers.node_eq (hf : sel.IsFilled) (hm : sel.IsMatching) (hn : sel.NodeAt place number p node) :
    sel.node b p = .ok node := by
  have hnode : ∀ {p x y f k op}, sel.Projects p x y f k → sel.operation b x y = .ok op →
      sel.node b p = .ok ⟨op, place (sel.schema.slotOf p), (sel.schema.point p).index⟩ := by
    intro p x y f k op hp hop
    obtain ⟨_, hc, _⟩ := hp.carries hf
    rw [Selection.node, h.leafFeature_eq hc, hp.predecessor hf]
    simp only [hm.partner_eq_some.2 hp.link, Option.elim_some, hop]
    rfl
  cases hn with
  | lexical hc hnone =>
    rw [Selection.node, h.leafFeature_eq hc, hnone, (hf.built.predecessor_eq_none hc.1).1 hnone]
    rfl
  | merge hp hk hmoves => exact hnode hp (by rw [h.operation_eq hp hk, hmoves]; rfl)
  | headMove hp hk hmoves => exact hnode hp (by rw [h.operation_eq hp hk, hmoves]; rfl)
  | @move x y z f k g hp hk hz hg hs =>
    have hid := h.nodeId_eq ⟨g, hz, by rw [hg]; decide⟩
    refine hnode hp ?_
    rw [operation, h.leafFeature_eq hp.trigger, h.leafFeature_eq hp.target, isLanding_eq hp.target,
      h.nodeId_eq ⟨f, hp.trigger, hp.ne_licensee⟩, mover_eq hf hz hg hs]
    simp only [hk, decide_true, if_true, Fallible.ok_bind, hid]
    rfl

end Made

/-- Leaves are made in the order of their slots and then put in that of their numbers. -/
theorem leaves_eq (hleaves : List.Forall₂ (fun slot leaf => sel.leaf? slot = some leaf) slots leaves)
    (hb : b.leaves = slots.zipIdx.reverse) : sel.leaves b = .ok leaves := by
  have hnumbered : List.Forall₂ (fun x y => y.1 = x.2 ∧ sel.leaf? x.1 = some y.2) slots.zipIdx
      (leaves.zipIdx.map fun x => (x.2, x.1)) := by
    rw [List.forall₂_map_right_iff, List.forall₂_iff_get]
    refine ⟨by simp [hleaves.length_eq], fun i h₁ h₂ => ?_⟩
    rw [List.length_zipIdx] at h₁ h₂
    simpa using hleaves.get h₁ h₂
  have hperm : (sortByKey b.leaves).Perm slots.zipIdx :=
    (perm_sortByKey _).trans (hb ▸ List.reverse_perm _)
  obtain ⟨made, hmade, hperm'⟩ := List.perm_comp_forall₂ hperm hnumbered
  have hascending : (leaves.zipIdx.map fun x => (x.2, x.1)).Pairwise (·.1 < ·.1) := by
    rw [List.pairwise_map, ← List.pairwise_map (f := Prod.snd) (R := (· < ·)), List.zipIdx_map_snd]
    exact List.pairwise_lt_range'
  have hsorted := sortByKey_eq_of_perm hperm' hascending
  rw [Selection.leaves, Fallible.bind_eq_ok]
  refine ⟨made, Fallible.mapM_eq_ok.2 (hmade.imp fun x y hxy => ?_), ?_⟩
  · dsimp only
    rw [hxy.2, ← hxy.1]
  · rw [hsorted, List.map_map]
    exact congrArg Except.ok (List.zipIdx_map_fst 0 leaves)

theorem leaf?_eq_some (h : sel.item? slot = some item) : ∃ leaf, sel.leaf? slot = some leaf := by
  rw [leaf?, h]
  exact ⟨_, rfl⟩

theorem Builds.within (h : sel.Builds p t) :
    t.Within fun slot => ∃ item, sel.item? slot = some item := by
  induction h with
  | lexical hc _ => exact hc.exists_item
  | merge hp _ _ _ ihh iha => exact ⟨⟨hp.trigger.exists_item, hp.target.exists_item⟩, ihh, iha⟩
  | move hp _ _ ih => exact ⟨⟨hp.trigger.exists_item, hp.target.exists_item⟩, ih⟩

section Filled

variable (hf : sel.IsFilled) (hd : sel.IsDerivation)
include hf hd

theorem IsDerivation.mem_points (hmem : ∀ q, q ∈ points ↔ sel.HasPhrase q ∧ ReflTransGen sel.Step q sel.root) (q : PointId) :
    q ∈ points ↔ sel.HasPhrase q :=
  (hmem q).trans (and_iff_left_of_imp fun ⟨_, hc, _⟩ => reflTransGen_root hf hd hc)

/-- The walk from the root comes by the points of all phrases and ends, however deep it may go. -/
theorem IsDerivation.exists_number_eq (hb : sel.Builds sel.root t) : ∃ points, List.Forall₂ sel.Builds points t.phrases ∧
    (points.Nodup ∧ ∀ q, q ∈ points ↔ sel.HasPhrase q) ∧ ∀ n, sel.schema.pointCount ≤ n →
      sel.number n sel.root {} = ⟨points.zipIdx.reverse, t.leaves.zipIdx.reverse, points⟩ := by
  obtain ⟨points, hps, hnodup, hbelow⟩ := hb.exists_points hf hd.toIsMatching hd.isAcyclic
  have hmem := hd.mem_points hf hbelow
  refine ⟨points, hps, ⟨hnodup, hmem⟩, fun n hn => ?_⟩
  have hsize : t.size ≤ sel.schema.pointCount := by
    rw [← t.length_phrases, ← hps.length_eq]
    have hlt : points ⊆ List.range sel.schema.pointCount := fun q hq => List.mem_range.2 ((hmem q).1 hq).lt
    simpa using (hnodup.subperm hlt).length_le
  obtain ⟨points', hps', hnumber⟩ :=
    hb.number_eq hf hd.toIsMatching hd.isAcyclic (b := {}) (Nat.le_trans hsize hn) fun _ _ h => by cases h
  rw [hnumber, Numbering.extend_empty, List.left_unique_forall₂' (fun _ _ _ h h' => h.point_unique hf h') hps' hps]

/-- The derivation is that of the tree, with the slots numbered as its leaves. -/
theorem derivation_eq (ht : sel.tree = some t)
    (hleaves : List.Forall₂ (fun slot leaf => sel.leaf? slot = some leaf) t.leaves leaves) :
    sel.derivation = .ok (.ofTree leaves (t.relabel t.leaves.idxOf)) := by
  have hb := hd.builds_root hf ht
  have hslots := hb.nodup_leaves hf hd.toIsMatching hd.isAcyclic
  obtain ⟨points, hps, ⟨hnodup, hmem⟩, hnumber⟩ := hd.exists_number_eq hf hb
  obtain ⟨place, hinj, hidx⟩ := exists_injective_idxOf t.leaves
  set b : Numbering := ⟨points.zipIdx.reverse, t.leaves.zipIdx.reverse, points⟩
  have hnumbers : sel.Numbers b place points.idxOf := by
    refine ⟨fun p f hc => ?_, fun p hp => lookup_zipIdx_reverse hnodup ((hmem p).2 hp)⟩
    have hs := (mem_leaves_root hf hd hb).2 hc.exists_item
    rw [hidx _ hs]
    exact lookup_zipIdx_reverse hslots hs
  have hnodes : points.mapM (sel.node b) = .ok (t.relabel t.leaves.idxOf).nodes := by
    rw [Tree.relabel_congr hb.within fun slot hs => (hidx slot ((mem_leaves_root hf hd hb).2 hs)).symm,
      Tree.nodes_relabel hinj, Fallible.mapM_eq_ok]
    exact (forall₂_nodeAt hf hd hps hnodup hmem).imp fun p n hn => hnumbers.node_eq hf hd.toIsMatching hn
  rw [derivation, hnumber _ (Nat.le_refl _), leaves_eq hleaves rfl, Fallible.bind_eq_ok]
  exact ⟨leaves, rfl, by rw [hnodes]; rfl⟩

theorem exists_derivation_eq : ∃ t leaves, sel.tree = some t ∧
    List.Forall₂ (fun slot leaf => sel.leaf? slot = some leaf) t.leaves leaves ∧
      sel.derivation = .ok (.ofTree leaves (t.relabel t.leaves.idxOf)) := by
  obtain ⟨t, ht, hb⟩ := hd.exists_tree hf
  have hsome : ∀ slots : List SlotId, (∀ slot ∈ slots, ∃ item, sel.item? slot = some item) →
      ∃ leaves, List.Forall₂ (fun slot leaf => sel.leaf? slot = some leaf) slots leaves := by
    intro slots h
    induction slots with
    | nil => exact ⟨[], .nil⟩
    | cons slot slots ih =>
      obtain ⟨item, hi⟩ := h slot (.head _)
      obtain ⟨leaf, hl⟩ := leaf?_eq_some hi
      obtain ⟨leaves, hls⟩ := ih fun s hs => h s (.tail _ hs)
      exact ⟨leaf :: leaves, .cons hl hls⟩
  obtain ⟨leaves, hleaves⟩ := hsome t.leaves fun slot => (mem_leaves_root hf hd hb).1
  exact ⟨t, leaves, ht, hleaves, derivation_eq hf hd ht hleaves⟩

theorem IsDerivation.exists_derivation : ∃ d, sel.derivation = .ok d :=
  let ⟨_, _, _, _, h⟩ := exists_derivation_eq hf hd
  ⟨_, h⟩

theorem derivation_eq_ok : sel.derivation = .ok d ↔ ∃ t, sel.tree = some t ∧
    List.Forall₂ (fun slot leaf => sel.leaf? slot = some leaf) t.leaves d.leaves ∧
      d = .ofTree d.leaves (t.relabel t.leaves.idxOf) := by
  constructor
  · intro hder
    obtain ⟨t, leaves, ht, hleaves, h⟩ := exists_derivation_eq hf hd
    obtain rfl := Except.ok.inj (hder.symm.trans h)
    exact ⟨t, ht, hleaves, rfl⟩
  · rintro ⟨t, ht, hleaves, h⟩
    exact (derivation_eq hf hd ht hleaves).trans (congrArg _ h.symm)

theorem tree_eq_relabel (hder : sel.derivation = .ok d) (ht : sel.tree = some t) : d.tree = t.relabel t.leaves.idxOf := by
  obtain ⟨t', ht', _, h⟩ := (derivation_eq_ok hf hd).1 hder
  obtain rfl := Option.some.inj (ht.symm.trans ht')
  exact (congrArg Derivation.tree h).trans (Derivation.tree_ofTree _ _)

theorem isPreorder_of_derivation (hder : sel.derivation = .ok d) : d.IsPreorder := by
  obtain ⟨t, _, _, h⟩ := (derivation_eq_ok hf hd).1 hder
  exact h ▸ Derivation.isPreorder_ofTree _ _

end Filled

end Selection

end MinimalistGrammar
