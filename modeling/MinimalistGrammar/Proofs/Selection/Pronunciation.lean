import MinimalistGrammar.Proofs.Selection.Validity

/-!
The walk through the derivation of a selection. It ends, and on the way it pronounces each leaf once.
-/

open Relation

namespace MinimalistGrammar

namespace Selection

variable {sel : Selection} {p : PointId} {t u : Tree} {d : Derivation}

section Filled

variable (hf : sel.IsFilled) (hd : sel.IsDerivation)
include hf hd

theorem perm_leaves (ht : sel.Builds sel.root t) : t.spellout.Perm t.leaves := by
  obtain ⟨O, hO, hprec, hmem⟩ := exists_order hf hd ht
  have hnodup : t.spellout.Nodup := by
    refine (pairwise_spellout hf hd ht hO hmem hprec).imp ?_
    rintro i j ⟨a, b, ⟨hi, hj⟩, hab | ⟨_, hne, _⟩⟩
    · rintro rfl
      exact hab.ne hf hd (hi.unique hf hd.toIsMatching hj)
    · exact hne
  refine (List.perm_ext_iff_of_nodup hnodup (ht.nodup_leaves hf hd.toIsMatching hd.isAcyclic)).2 fun slot => ?_
  rw [mem_spellout hf hd ht hO hmem, mem_leaves_root hf hd ht]

variable (hder : sel.derivation = .ok d)
include hder

theorem perm_order : d.order.Perm (List.range d.leaves.length) := by
  rw [order_eq_spellout hf hd hder]
  obtain ⟨place, points, h⟩ := hd.exists_numbered hf hder
  obtain ⟨t, ht, hb⟩ := hd.exists_tree hf
  have hnodup := hb.nodup_leaves hf hd.toIsMatching hd.isAcyclic
  rw [h.tree t ht, Tree.spellout_relabel h.injective]
  refine ((perm_leaves hf hd hb).map place).trans ?_
  refine (List.perm_ext_iff_of_nodup (hnodup.map h.injective) List.nodup_range).2 fun l => ?_
  rw [List.mem_map, List.mem_range]
  constructor
  · rintro ⟨slot, hs, rfl⟩
    obtain ⟨_, hi⟩ := (mem_leaves_root hf hd hb).1 hs
    exact h.leaf_lt hi
  · intro hl
    obtain ⟨slot, item, hi, rfl⟩ := h.exists_slot l _ (List.getElem?_eq_getElem hl)
    exact ⟨slot, (mem_leaves_root hf hd hb).2 ⟨item, hi⟩, rfl⟩

theorem perm_pronounced : d.pronounced.Perm sel.schema.words := by
  have hforms : d.leaves.filterMap (·.form) = (d.leaves.filterMap (·.position)).filterMap (sel.schema.words[·]?) := by
    rw [List.filterMap_filterMap]
    exact List.filterMap_congr fun leaf hl => (form_of_mem_leaves hf hd hder hl).1
  have hleaves : ((List.range d.leaves.length).filterMap fun l => (d.leaf? l).bind (·.form)) = d.leaves.filterMap (·.form) := by
    rw [← List.filterMap_filterMap]
    exact congrArg (List.filterMap _) (filterMap_getElem?_range d.leaves)
  have hpos := (perm_positions hf hd hder).filterMap (sel.schema.words[·]?)
  rw [filterMap_getElem?_range, ← hforms, ← hleaves] at hpos
  exact ((perm_order hf hd hder).filterMap _).trans hpos

end Filled

end Selection

end MinimalistGrammar
