import MinimalistGrammar.Proofs.Selection.Numbered
import MinimalistGrammar.Proofs.Selection.Usage

/-!
What a derivation is by itself, without the selection it comes from: one tree in preorder, in which every word has one
leaf and every feature but the last is checked once, and which keeps to the bounds.
-/

open Relation

namespace MinimalistGrammar

namespace Derivation

variable (d : Derivation)

def checks : List Check := d.nodes.filterMap (·.operation.check?)

variable {d} in
theorem IsPreorder.checks_eq (h : d.IsPreorder) : d.checks = d.tree.checks := by
  rw [checks, h, Tree.filterMap_check_nodes]

/-- The features that the checks use up, and the one that is left at the root. -/
def spent : List FeatureRef := (d.checks.flatMap fun c => [c.trigger, c.target]) ++ d.completion?.toList

/-- The derivation is complete by itself, for a sentence and within bounds. -/
structure IsValid (words : List String) (bounds : Bounds) (d : Derivation) : Prop where
  /-- The nodes are numbered as a walk from the root, which is node 0, comes by them. -/
  walk : Walk d.nodes [0] (List.range d.nodes.length)
  /-- Every node but the root is the head or argument of one node. -/
  mother : ∀ i < d.nodes.length, (d.nodes.flatMap (·.operation.daughters)).count i = if i = 0 then 0 else 1
  nodes : ∀ n ∈ d.nodes, ∀ i ∈ n.operation.nodes, i < d.nodes.length
  leaves : ∀ n ∈ d.nodes, ∀ l ∈ n.head :: n.operation.leaves, l < d.leaves.length
  /-- There is one leaf for each word, which has the form of the word, and the others are covert. -/
  positions : (d.leaves.filterMap (·.position)).Perm (List.range words.length)
  form : ∀ l ∈ d.leaves, l.form = l.position.bind (words[·]?)
  covert : ∀ l ∈ d.leaves, l.position.isNone = l.isCovert
  /-- Each feature is used up once, one of them at the root. -/
  completion : d.completion?.isSome = true
  spent : ∀ r, d.spent.count r = if (d.feature? r).isSome then 1 else 0
  checks : ∀ c ∈ d.checks, ∃ f g, (d.feature? c.trigger = some f ∧ d.feature? c.target = some g) ∧ f.checks g = true
  /-- What moves has been below, and is the phrase of the leaf whose licensee is checked. -/
  movers : ∀ i n h m c, d.nodes[i]? = some n → n.operation = .move h m c →
    IsAbove d.nodes i m ∧ d.nodes[m]?.map (·.head) = some c.target.leaf
  /-- No host is taken up. -/
  hosts : ∀ n ∈ d.nodes, ∀ n' ∈ d.nodes, ∀ h a c l h' a' c' l', n.operation = .headMove h a c l →
    n'.operation = .headMove h' a' c' l' → c'.trigger.leaf ≠ l
  emptyItems : d.usage.emptyItems ≤ bounds.emptyItems
  movements : d.usage.movements ≤ bounds.movements
  headMovements : d.usage.headMovements ≤ bounds.headMovements

end Derivation

namespace Selection

variable {sel : Selection} {p q : PointId} {f g : Feature} {t : Tree} {d : Derivation} {slots : List SlotId}
  {points : List PointId} {place : SlotId → LeafId} {i j host : NodeId} {n : Node} {l : LeafId} {c : Check}

theorem countP_eq_of_forall₂ {α β : Type} {R : α → β → Prop} {xs : List α} {ys : List β} {P : α → Bool} {Q : β → Bool}
    (h : List.Forall₂ R xs ys) (hPQ : ∀ x y, R x y → P x = Q y) : xs.countP P = ys.countP Q := by
  induction h with
  | nil => rfl
  | cons hxy _ ih => rw [List.countP_cons, List.countP_cons, ih, hPQ _ _ hxy]

theorem filterMap_eq_of_forall₂ {α : Type} (h : List.Forall₂ (fun slot leaf => sel.leaf? slot = some leaf) slots d.leaves)
    (k : Leaf → Option α) : d.leaves.filterMap k = slots.filterMap fun slot => (sel.leaf? slot).bind k := by
  generalize d.leaves = leaves at h
  induction h with
  | nil => rfl
  | cons hl _ ih => rw [List.filterMap_cons, List.filterMap_cons, ih, hl, Option.bind_some]

section Root

variable (hf : sel.IsFilled) (hd : sel.IsDerivation) (hb : sel.Builds sel.root t)
include hf hd hb

theorem mem_spent_root (hq : sel.Carries q f) : sel.featureRef q ∈ t.spent ++ [sel.featureRef sel.root] := by
  rw [List.mem_append, List.mem_singleton, hb.mem_spent hf hd.toIsMatching]
  rcases reflTransGen_iff_eq_or_transGen.1 (reflTransGen_root hf hd hq) with he | hup
  · exact .inr (he ▸ rfl)
  · exact .inl ⟨q, ⟨f, hq⟩, hup, rfl⟩

theorem nodup_spent_root : (t.spent ++ [sel.featureRef sel.root]).Nodup := by
  obtain ⟨g, hg, _⟩ := hd.hasRoot.isTop_root
  rw [List.nodup_append]
  refine ⟨hb.nodup_spent hf hd, List.nodup_singleton _, fun r hr r' hr' he => ?_⟩
  obtain ⟨q, ⟨f, hq⟩, hup, rfl⟩ := (hb.mem_spent hf hd.toIsMatching).1 hr
  rw [List.mem_singleton] at hr'
  rw [featureRef_injective hf hq.1 hg.1 (he.trans hr')] at hup
  exact hd.isAcyclic _ hup

theorem Numbered.completion?_eq (h : sel.Numbered d place points) (ht : sel.tree = some t) :
    d.completion? = some ((sel.featureRef sel.root).rename place) := by
  obtain ⟨g, hg, hcat⟩ := hd.hasRoot.isTop_root
  have hroot : (⟨d.tree.head, d.tree.index⟩ : FeatureRef) = (sel.featureRef sel.root).rename place := by
    rw [h.tree t ht, Tree.head_relabel, Tree.index_relabel, hb.head_eq hf, hb.index_eq hf]
    rfl
  rw [Derivation.completion?, h.preorder.getElem?_zero, Option.bind_eq_bind, Option.bind_some]
  dsimp only
  rw [hroot, h.feature?_featureRef hg]
  simp [hcat]

end Root

section Filled

variable (hf : sel.IsFilled) (hd : sel.IsDerivation) (hder : sel.derivation = .ok d)
include hf hd hder

theorem exists_slots : ∃ slots, List.Forall₂ (fun slot leaf => sel.leaf? slot = some leaf) slots d.leaves ∧
    slots.Nodup ∧ ∀ slot, slot ∈ slots ↔ ∃ item, sel.item? slot = some item := by
  obtain ⟨t, ht, hleaves, _⟩ := (derivation_eq_ok hf hd).1 hder
  have hb := hd.builds_root hf ht
  exact ⟨t.leaves, hleaves, hb.nodup_leaves hf hd.toIsMatching hd.isAcyclic, fun slot => mem_leaves_root hf hd hb⟩

theorem perm_positions : (d.leaves.filterMap (·.position)).Perm (List.range sel.schema.words.length) := by
  obtain ⟨slots, hleaves, hnodup, hmem⟩ := exists_slots hf hd hder
  have hfilter : d.leaves.filterMap (·.position) = slots.filter (· < sel.schema.words.length) := by
    rw [filterMap_eq_of_forall₂ hleaves, ← List.filterMap_eq_filter]
    refine List.filterMap_congr fun slot hs => ?_
    obtain ⟨item, hi⟩ := (hmem slot).1 hs
    obtain ⟨leaf, hl⟩ := leaf?_eq_some hi
    rw [hl, Option.bind_some, (leaf?_spec hf hl).2, Option.guard]
    simp
  rw [hfilter, List.perm_ext_iff_of_nodup (hnodup.filter _) List.nodup_range]
  intro slot
  rw [List.mem_filter, hmem, List.mem_range, decide_eq_true_iff]
  exact and_iff_right_of_imp (hf.words slot)

theorem form_of_mem_leaves {leaf : Leaf} (hl : leaf ∈ d.leaves) :
    leaf.form = leaf.position.bind (sel.schema.words[·]?) ∧ leaf.position.isNone = leaf.isCovert := by
  obtain ⟨slots, hleaves, _, _⟩ := exists_slots hf hd hder
  obtain ⟨i, hi, rfl⟩ := List.getElem_of_mem hl
  have hslot := hleaves.get (hleaves.length_eq ▸ hi) hi
  rw [List.get_eq_getElem, List.get_eq_getElem] at hslot
  obtain ⟨hform, hposition⟩ := leaf?_spec hf hslot
  rw [Leaf.isCovert, hform, hposition]
  split
  · rename_i hlt
    simp [hlt]
  · rename_i hlt
    simp [List.getElem?_eq_none (Nat.le_of_not_lt hlt)]

theorem countP_isCovert_le : d.leaves.countP (·.isCovert) ≤ sel.schema.bounds.emptyItems := by
  obtain ⟨slots, hleaves, hnodup, hmem⟩ := exists_slots hf hd hder
  have hcount : slots.countP (sel.schema.words.length ≤ ·) = d.leaves.countP (·.isCovert) := by
    refine countP_eq_of_forall₂ hleaves fun slot leaf hl => ?_
    rw [Leaf.isCovert, (leaf?_spec hf hl).1, Bool.eq_iff_iff, decide_eq_true_iff, Option.isNone_iff_eq_none,
      List.getElem?_eq_none_iff]
  have hsub : slots.filter (sel.schema.words.length ≤ ·) ⊆
      sel.schema.covertSlots.filter fun slot => (sel.item? slot).isSome := by
    intro slot hs
    obtain ⟨hs, hle⟩ := List.mem_filter.1 hs
    obtain ⟨item, hi⟩ := (hmem slot).1 hs
    exact List.mem_filter.2 ⟨Schema.mem_covertSlots.2 ⟨of_decide_eq_true hle, hf.item_lt hi⟩, by simp [hi]⟩
  have hle := ((hnodup.filter _).subperm hsub).length_le
  have hbound := Inconsistency.withinBound_eq_ok.1 hf.checkEmptyItems_eq_ok
  rw [List.countP_eq_length_filter] at hbound
  rw [← hcount, List.countP_eq_length_filter]
  exact Nat.le_trans hle hbound

/-- The derivation uses up each feature of each leaf once. -/
theorem count_spent : (∃ f, d.completion? = some f) ∧
    ∀ r, d.spent.count r = if (d.feature? r).isSome then 1 else 0 := by
  obtain ⟨place, points, h⟩ := hd.exists_numbered hf hder
  obtain ⟨t, ht, hb⟩ := hd.exists_tree hf
  obtain ⟨g, hg, _⟩ := hd.hasRoot.isTop_root
  have hcompletion := h.completion?_eq hf hd hb ht
  have hspent : d.spent = (t.spent ++ [sel.featureRef sel.root]).map (·.rename place) := by
    rw [Derivation.spent, hcompletion, h.preorder.checks_eq, List.map_append, ← Tree.spent_relabel, ← h.tree t ht]
    rfl
  refine ⟨⟨_, hcompletion⟩, fun r => ?_⟩
  rw [hspent, ((nodup_spent_root hf hd hb).map (FeatureRef.rename_injective h.injective)).count]
  refine if_congr ?_ rfl rfl
  rw [List.mem_map, Option.isSome_iff_exists]
  constructor
  · rintro ⟨_, hr, rfl⟩
    rw [List.mem_append, List.mem_singleton, hb.mem_spent hf hd.toIsMatching] at hr
    rcases hr with ⟨q, ⟨f, hq⟩, _, rfl⟩ | rfl
    · exact ⟨f, h.feature?_featureRef hq⟩
    · exact ⟨g, h.feature?_featureRef hg⟩
  · rintro ⟨f, hr⟩
    obtain ⟨q, hq, rfl⟩ := h.exists_carries hf hr
    exact ⟨_, mem_spent_root hf hd hb hq, rfl⟩

end Filled

namespace Numbered

section Nodes

variable (h : sel.Numbered d place points)
include h

theorem idxOf_lt (hp : sel.HasPhrase p) : points.idxOf p < d.nodes.length :=
  h.nodes.length_eq ▸ List.idxOf_lt_length_of_mem ((h.mem_points _).2 hp)

theorem exists_nodeAt (hn : n ∈ d.nodes) : ∃ p, sel.NodeAt place points.idxOf p n := by
  obtain ⟨i, hi⟩ := List.getElem?_of_mem hn
  obtain ⟨p, _, hp⟩ := h.exists_point hi
  exact ⟨p, hp⟩

theorem node_lt (hn : n ∈ d.nodes) (hi : i ∈ n.operation.nodes) : i < d.nodes.length := by
  obtain ⟨p, hp⟩ := h.exists_nodeAt hn
  obtain ⟨q, hq, rfl⟩ := hp.exists_phrase hi
  exact h.idxOf_lt hq

theorem leaf_lt_of_mem (hf : sel.IsFilled) (hn : n ∈ d.nodes) (hl : l ∈ n.head :: n.operation.leaves) :
    l < d.leaves.length := by
  obtain ⟨p, hp⟩ := h.exists_nodeAt hn
  obtain ⟨q, f, hq, rfl⟩ := hp.exists_leaf hf hl
  exact h.leaf_slotOf_lt hq

theorem checks_of_mem (hc : c ∈ d.checks) :
    ∃ f g, (d.feature? c.trigger = some f ∧ d.feature? c.target = some g) ∧ f.checks g = true := by
  obtain ⟨n, hn, hcheck⟩ := List.mem_filterMap.1 hc
  obtain ⟨p, hp⟩ := h.exists_nodeAt hn
  obtain ⟨x, y, f, k, hpr, rfl⟩ := hp.exists_check hcheck
  exact ⟨f, k, ⟨h.feature?_featureRef hpr.trigger, h.feature?_featureRef hpr.target⟩, hpr.checks⟩

end Nodes

section Derivation

variable (hf : sel.IsFilled) (hd : sel.IsDerivation) (h : sel.Numbered d place points)
include hf hd h

theorem isAbove_mover (hn : d.nodes[i]? = some n) (hop : n.operation = .move host j c) :
    IsAbove d.nodes i j ∧ d.nodes[j]?.map (·.head) = some c.target.leaf := by
  have hm := hd.toIsMatching
  obtain ⟨p, ⟨hp, rfl⟩, hnode⟩ := h.exists_point hn
  cases hnode with
  | lexical _ _ => cases hop
  | merge _ _ _ => cases hop
  | headMove _ _ _ => cases hop
  | @move x y z f k g hpr hk hz hg hs =>
    cases hop
    have hzp : sel.HasPhrase z := ⟨g, hz, by rw [hg]; decide⟩
    have hl := mem_landings.2 ⟨k, hpr.target, hk⟩
    refine ⟨(h.isAbove_iff hf hm hp hzp).2 (transGen_of_landing hf hd hz hg hl hs (.single (hpr.step_target hm))), ?_⟩
    obtain ⟨nz, hnz, hzn⟩ := h.exists_node hzp
    rw [hnz, Option.map_some, hzn.head_eq, hs]
    rfl

omit hd h in
theorem exists_takesUp (hn : sel.NodeAt place points.idxOf p n) (hop : n.operation = .headMove i j c l) :
    ∃ host mover, sel.TakesUp host mover ∧ c.trigger.leaf = place host ∧ l = place mover := by
  cases hn with
  | lexical _ _ => cases hop
  | merge _ _ _ => cases hop
  | headMove hpr _ hmoves =>
    cases hop
    exact ⟨_, _, hpr.takesUp hf hmoves, rfl, rfl⟩
  | move _ _ _ _ _ => cases hop

theorem not_host_of_taken {n' : Node} {i' j' : NodeId} {c' : Check} {l' : LeafId} (hn : n ∈ d.nodes)
    (hn' : n' ∈ d.nodes) (hop : n.operation = .headMove i j c l) (hop' : n'.operation = .headMove i' j' c' l') :
    c'.trigger.leaf ≠ l := by
  intro he
  obtain ⟨p, hp⟩ := h.exists_nodeAt hn
  obtain ⟨p', hp'⟩ := h.exists_nodeAt hn'
  obtain ⟨host, mover, htakes, _, rfl⟩ := exists_takesUp hf hp hop
  obtain ⟨host', mover', htakes', hhost', _⟩ := exists_takesUp hf hp' hop'
  obtain rfl := h.injective (hhost'.symm.trans he)
  exact htakes'.not_takesUp hf hd htakes

end Derivation

end Numbered

section Filled

variable (hf : sel.IsFilled) (hd : sel.IsDerivation) (hder : sel.derivation = .ok d)
include hf hd hder

/-- What the checks of the selection make is a derivation by itself. -/
theorem IsDerivation.isValid : d.IsValid sel.schema.words sel.schema.bounds := by
  obtain ⟨place, points, h⟩ := hd.exists_numbered hf hder
  obtain ⟨t, ht, hb⟩ := hd.exists_tree hf
  have htree := h.tree t ht
  obtain ⟨hcompletion, hspent⟩ := count_spent hf hd hder
  have walk : Walk d.nodes [0] (List.range d.nodes.length) := by
    rw [h.preorder]
    exact d.tree.walk_nodes
  refine {
    walk
    mother := fun i hi => walk.count_daughters hi
    nodes := fun n hn i hi => h.node_lt hn hi
    leaves := fun n hn l hl => h.leaf_lt_of_mem hf hn hl
    positions := perm_positions hf hd hder
    form := fun l hl => (form_of_mem_leaves hf hd hder hl).1
    covert := fun l hl => (form_of_mem_leaves hf hd hder hl).2
    completion := Option.isSome_iff_exists.2 hcompletion
    spent := hspent
    checks := fun c hc => h.checks_of_mem hc
    movers := fun i n host m c hn hop => h.isAbove_mover hf hd hn hop
    hosts := fun n hn n' hn' _ _ _ _ _ _ _ _ hop hop' => h.not_host_of_taken hf hd hn hn' hop hop'
    emptyItems := countP_isCovert_le hf hd hder
    movements := ?_, headMovements := ?_ }
  · rw [Derivation.usage, h.preorder, Tree.countP_isMove_nodes, htree, Tree.landings_relabel, List.length_map]
    exact length_landings_le hf hd hb
  · rw [Derivation.usage, h.preorder, Tree.countP_isHeadMove_nodes, htree, Tree.hosts_relabel, List.length_map]
    exact length_hosts_le hf hd hb

end Filled

end Selection

end MinimalistGrammar
