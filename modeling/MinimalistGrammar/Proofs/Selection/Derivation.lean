import MinimalistGrammar.Proofs.Derivation.Linearization
import MinimalistGrammar.Proofs.Selection.Numbering
import MinimalistGrammar.Proofs.Selection.Usage

/-!
How the derivation of a selection is pronounced. The walk through its nodes comes to the leaves as the tree spells out the
slots.
-/

namespace MinimalistGrammar

theorem filterMap_getElem?_range {α : Type} (l : List α) : ((List.range l.length).filterMap fun i => l[i]?) = l := by
  induction l with
  | nil => rfl
  | cons x l ih =>
    rw [List.length_cons, List.range_succ_eq_map, List.filterMap_cons, List.filterMap_map]
    exact congrArg (x :: ·) ih

namespace Derivation

/-- The places in the sentence of the leaves, in the order in which these are pronounced. -/
def positions (d : Derivation) : List Nat := d.order.filterMap fun l => (d.leaf? l).bind (·.position)

theorem order_congr {d d' : Derivation} (h : d.nodes = d'.nodes) : d.order = d'.order := by
  rw [order, order, linearize, linearize, h]

end Derivation

namespace Selection

variable {sel : Selection} {t u : Tree} {p : PointId} {slot : SlotId} {d : Derivation}

theorem Builds.exists_of_mem_phrases (h : sel.Builds p t) (hu : u ∈ t.phrases) : ∃ q, sel.Builds q u := by
  induction h with
  | lexical hc hn =>
    obtain rfl := List.mem_singleton.1 hu
    exact ⟨_, .lexical hc hn⟩
  | merge hp hk hh ha ihh iha =>
    rcases List.mem_cons.1 hu with rfl | hu
    · exact ⟨_, .merge hp hk hh ha⟩
    · exact (List.mem_append.1 hu).elim ihh iha
  | move hp hk hh ih =>
    rcases List.mem_cons.1 hu with rfl | hu
    · exact ⟨_, .move hp hk hh⟩
    · exact ih hu

section Filled

variable (hf : sel.IsFilled)
include hf

/-- The leaf of a slot has the form and the place of the slot's word. -/
theorem leaf?_spec {leaf : Leaf} (h : sel.leaf? slot = some leaf) : leaf.form = sel.schema.words[slot]? ∧
    leaf.position = if slot < sel.schema.words.length then some slot else none := by
  obtain ⟨item, hi, rfl⟩ := Option.map_eq_some_iff.1 h
  exact ⟨hf.form_eq hi, hf.built.position_eq⟩

variable (hd : sel.IsDerivation)
include hd

omit hf hd in
theorem leaf?_idxOf {slots : List SlotId} (hs : slot ∈ slots)
    (h : List.Forall₂ (fun slot leaf => sel.leaf? slot = some leaf) slots d.leaves) :
    d.leaf? (slots.idxOf slot) = sel.leaf? slot := by
  have hi := List.idxOf_lt_length_of_mem hs
  have := h.get hi (h.length_eq ▸ hi)
  rw [List.get_eq_getElem, List.getElem_idxOf] at this
  rw [this, Derivation.leaf?, List.getElem?_eq_getElem (h.length_eq ▸ hi)]
  rfl

theorem Builds.isPronounceable (ht : sel.Builds sel.root t) : t.IsPronounceable where
  nodup_leaves := ht.nodup_leaves hf hd.toIsMatching hd.isAcyclic
  host_unique := fun host leaf leaf' h h' =>
    ((mem_hosts_root hf hd ht).1 h).unique hd ((mem_hosts_root hf hd ht).1 h')
  nodup_landings := (ht.nodup_spent hf hd).sublist t.landings_sublist_spent
  waits := by
    intro h c hu hl
    obtain ⟨q, hb⟩ := ht.exists_of_mem_phrases hu
    have hL : ∀ ref, ref ∈ t.landings ↔ ∃ l ∈ sel.landings, ref = sel.featureRef l := fun _ => mem_landings_root hf hd ht
    cases hb with
    | @move p x y f k h hp hk hh =>
      have hlast := (isLastLanding_iff hf hL (Selection.mem_landings.2 ⟨k, hp.target, hk⟩)).1 hl
      have hkey := ((hh.spelled hf hd hL).mem_keys _).2 (waits_of_isLast hf hd hp hlast)
      rw [Tree.spell_eq_flatMap, Spellout.flatMap, List.map_map]
      exact hkey

variable (hder : sel.derivation = .ok d)
include hder

/-- The leaves of the slots are named apart. -/
theorem exists_place (ht : sel.tree = some t) : ∃ place : SlotId → LeafId, Function.Injective place ∧ d.tree = t.relabel place ∧
    ∀ slot ∈ t.leaves, place slot = t.leaves.idxOf slot := by
  have hb := hd.builds_root hf ht
  obtain ⟨place, hinj, hidx⟩ := exists_injective_idxOf t.leaves
  refine ⟨place, hinj, ?_, hidx⟩
  rw [tree_eq_relabel hf hd hder ht]
  exact Tree.relabel_congr hb.within fun slot hs => (hidx slot ((mem_leaves_root hf hd hb).2 hs)).symm

theorem order_eq_spellout : d.order = d.tree.spellout := by
  obtain ⟨t, ht, hb⟩ := hd.exists_tree hf
  obtain ⟨place, hinj, htree, _⟩ := exists_place hf hd hder ht
  exact Derivation.order_eq (isPreorder_of_derivation hf hd hder) (htree ▸ (hb.isPronounceable hf hd).relabel hinj)

theorem linearize_eq_order {fuel : Nat} (hfuel : d.nodes.length ≤ fuel) : d.linearize fuel = some d.order := by
  obtain ⟨t, ht, hb⟩ := hd.exists_tree hf
  obtain ⟨place, hinj, htree, _⟩ := exists_place hf hd hder ht
  rw [order_eq_spellout hf hd hder]
  exact Derivation.linearize_eq (isPreorder_of_derivation hf hd hder) (htree ▸ (hb.isPronounceable hf hd).relabel hinj) hfuel

theorem filterMap_order {α : Type} (ht : sel.tree = some t) (k : Leaf → Option α) :
    (d.order.filterMap fun l => (d.leaf? l).bind k) = t.spellout.filterMap fun slot => (sel.leaf? slot).bind k := by
  obtain ⟨t', ht', hleaves, _⟩ := (derivation_eq_ok hf hd).1 hder
  obtain rfl := Option.some.inj (ht.symm.trans ht')
  have hb := hd.builds_root hf ht
  obtain ⟨place, hinj, htree, hidx⟩ := exists_place hf hd hder ht
  rw [order_eq_spellout hf hd hder, htree, Tree.spellout_relabel hinj, List.filterMap_map]
  obtain ⟨O, hO, _, hmem⟩ := exists_order hf hd hb
  refine List.filterMap_congr fun slot hs => ?_
  have hl := (mem_leaves_root hf hd hb).2 ((mem_spellout hf hd hb hO hmem).1 hs)
  rw [Function.comp_apply, hidx slot hl]
  exact congrArg (·.bind k) (leaf?_idxOf hl hleaves)

theorem positions_eq (ht : sel.tree = some t) :
    d.positions = t.spellout.filter (· < sel.schema.words.length) := by
  rw [Derivation.positions, filterMap_order hf hd hder ht, ← List.filterMap_eq_filter]
  have hb := hd.builds_root hf ht
  obtain ⟨O, hO, _, hmem⟩ := exists_order hf hd hb
  refine List.filterMap_congr fun slot hs => ?_
  obtain ⟨item, hi⟩ := (mem_spellout hf hd hb hO hmem).1 hs
  obtain ⟨leaf, hl⟩ := leaf?_eq_some hi
  rw [hl, Option.bind_some, (leaf?_spec hf hl).2, Option.guard]
  simp

theorem isInOrder_iff_positions :
    sel.IsInOrder ↔ d.positions = List.range sel.schema.words.length := by
  obtain ⟨t, ht, _⟩ := hd.exists_tree hf
  rw [positions_eq hf hd hder ht]
  constructor
  · rintro ⟨t', ht', h⟩
    rw [ht, Option.some.injEq] at ht'
    exact ht' ▸ h
  · exact fun h => ⟨t, ht, h⟩

theorem pronounced_eq (h : sel.IsInOrder) : d.pronounced = sel.schema.words := by
  obtain ⟨t, ht, hwords⟩ := h
  rw [Derivation.pronounced, filterMap_order hf hd hder ht]
  have hb := hd.builds_root hf ht
  obtain ⟨O, hO, _, hmem⟩ := exists_order hf hd hb
  have hform : (t.spellout.filterMap fun slot => (sel.leaf? slot).bind (·.form)) =
      t.spellout.filterMap fun slot => sel.schema.words[slot]? := by
    refine List.filterMap_congr fun slot hs => ?_
    obtain ⟨item, hi⟩ := (mem_spellout hf hd hb hO hmem).1 hs
    obtain ⟨leaf, hl⟩ := leaf?_eq_some hi
    rw [hl, Option.bind_some, (leaf?_spec hf hl).1]
  have hfilter : (t.spellout.filterMap fun slot => sel.schema.words[slot]?) =
      (t.spellout.filter (· < sel.schema.words.length)).filterMap fun slot => sel.schema.words[slot]? := by
    rw [List.filterMap_filter]
    refine List.filterMap_congr fun slot _ => ?_
    split
    · rfl
    · rename_i h
      exact List.getElem?_eq_none (Nat.not_lt.1 (by simpa using h))
  rw [hform, hfilter, hwords, filterMap_getElem?_range]

end Filled

end Selection

end MinimalistGrammar
