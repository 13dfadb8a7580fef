import MinimalistGrammar.Proofs.Encoding.Alignment
import MinimalistGrammar.Proofs.Encoding.Embedding

/-!
Assignments that say the same of a schema up to the order of its slots.
-/

namespace MinimalistGrammar

open MinimalistGrammar.Sat

namespace Encoding

/-- What the one assignment says of the choices and links, the other says of them where their slots and points go. -/
structure Transports (s : Schema) (enc : Encoding) (σ : SlotId → SlotId) (a a' : Assignment) : Prop where
  choices : ∀ slot < s.slotCount, (enc.lexical.choicesAt (σ slot)).map (fun choice => (choice.1, choice.2.value a')) =
    (enc.lexical.choicesAt slot).map fun choice => (choice.1, choice.2.value a)
  links : (enc.checking.links.map fun l => ((l.trigger, l.target), l.literal.value a')).Perm
    (enc.checking.links.map fun l => ((s.place s σ l.trigger, s.place s σ l.target), l.literal.value a))

variable {s : Schema} {enc : Encoding} {σ : SlotId → SlotId} {φ : PointId → PointId} {a a' : Assignment}
  {sel sel' : Selection}

theorem perm_linkPairs (h : s.Embeds s σ φ) : s.linkPairs.Perm (s.linkPairs.map fun l => (φ l.1, φ l.2)) := by
  have hinj : ∀ l ∈ s.linkPairs, ∀ l' ∈ s.linkPairs, (φ l.1, φ l.2) = (φ l'.1, φ l'.2) → l = l' := by
    rintro ⟨x, y⟩ hl ⟨x', y'⟩ hl' he
    obtain ⟨⟨hx, hy⟩, _⟩ := Schema.mem_linkPairs.1 hl
    obtain ⟨⟨hx', hy'⟩, _⟩ := Schema.mem_linkPairs.1 hl'
    obtain ⟨h₁, h₂⟩ := Prod.mk.inj he
    rw [(h.map_inj hx hx').1 h₁, (h.map_inj hy hy').1 h₂]
  have hsub : (s.linkPairs.map fun l => (φ l.1, φ l.2)) ⊆ s.linkPairs := by
    intro l hl
    obtain ⟨⟨x, y⟩, hxy, rfl⟩ := List.mem_map.1 hl
    exact h.mem_linkPairs_map hxy
  refine (((s.nodup_linkPairs.map_on hinj).subperm hsub).perm_of_length_le ?_).symm
  rw [List.length_map]

theorem map_links_place (ha : enc.Aligns s) (h : Selection.ofAssignment s enc a = .ok sel) :
    (enc.checking.links.map fun l => ((φ l.trigger, φ l.target), l.literal.value a)) =
      s.linkPairs.map fun l => ((φ l.1, φ l.2), decide (l ∈ sel.links)) := by
  have := congrArg (List.map fun x : (PointId × PointId) × Bool => ((φ x.1.1, φ x.1.2), x.2)) (map_links ha h)
  rwa [List.map_map, List.map_map] at this

/-- Two assignments say the same when what they select is placed the one into the other. -/
theorem transports_of_embeds (hs : s.IsBuilt) (ha : enc.Aligns s) (h : Selection.ofAssignment s enc a = .ok sel)
    (h' : Selection.ofAssignment s enc a' = .ok sel') (hemb : sel.Embeds sel' σ (s.place s σ)) :
    enc.Transports s σ a a' := by
  obtain rfl := (ofAssignment_eq_ok h).1
  have hschema := hemb.schema
  rw [(ofAssignment_eq_ok h').1] at hschema
  refine ⟨fun slot hslot => ?_, ?_⟩
  · rw [map_choices hs ha h' (hschema.lt slot hslot), map_choices hs ha h hslot, hschema.candidates_eq rfl hslot,
      hemb.item?_map slot hslot]
  · have hvalues : (sel.schema.linkPairs.map fun l => ((sel.schema.place sel.schema σ l.1,
        sel.schema.place sel.schema σ l.2), decide (l ∈ sel.links))) =
          (sel.schema.linkPairs.map fun l => (sel.schema.place sel.schema σ l.1, sel.schema.place sel.schema σ l.2)).map
            fun l => (l, decide (l ∈ sel'.links)) := by
      rw [List.map_map]
      refine List.map_congr_left fun ⟨x, y⟩ hl => ?_
      obtain ⟨⟨hx, hy⟩, _⟩ := Schema.mem_linkPairs.1 hl
      exact congrArg (Prod.mk _) (decide_eq_decide.2 (hemb.mem_links_map hx hy).symm)
    rw [map_links ha h', map_links_place ha h, hvalues]
    exact (perm_linkPairs hschema).map _

/-- What assignments select that say the same is placed the one into the other. -/
theorem embeds_of_transports {π : Equiv.Perm SlotId} (hs : s.IsBuilt) (ha : enc.Aligns s)
    (h : Selection.ofAssignment s enc a = .ok sel) (h' : Selection.ofAssignment s enc a' = .ok sel')
    (hfix : ∀ slot, slot ∉ s.covertSlots → π slot = slot) (ht : enc.Transports s π a a') :
    sel.Embeds sel' π (s.place s π) := by
  have ho := isOffered_of_ofAssignment ha h
  have ho' := isOffered_of_ofAssignment ha h'
  have hf := ho.isFilled hs
  have hf' := ho'.isFilled hs
  obtain rfl := ho.schema
  have hschema := ho'.schema
  have hslots := Schema.EmbedsSlots.of_perm hs hfix
  have hlinks := ht.links
  rw [map_links ha h', map_links_place ha h] at hlinks
  refine ⟨hschema ▸ hslots.embeds_place, hf, hf', fun slot hslot => ?_, fun slot' item hi => ?_, fun x y hl => ?_,
    fun x' y' hl => ?_⟩
  -- the choices of a slot hold one entry for each candidate, so they say which item is chosen
  · have hchoices := ht.choices slot hslot
    rw [map_choices hs ha h' (hslots.lt slot hslot), map_choices hs ha h hslot, hslots.candidates_eq rfl hslot,
      List.map_inj_left] at hchoices
    have hiff : ∀ c ∈ sel.schema.candidates slot, sel'.item? (π slot) = some c.2 ↔ sel.item? slot = some c.2 :=
      fun c hc => decide_eq_decide.1 (Prod.mk.inj (hchoices c hc)).2
    refine Option.ext fun item => ⟨fun hi => ?_, fun hi => ?_⟩
    · have hm := hf'.mem_candidates _ _ hi
      rw [hschema, hslots.candidates_eq rfl hslot] at hm
      obtain ⟨c, hc, rfl⟩ := List.mem_map.1 hm
      exact (hiff c hc).1 hi
    · obtain ⟨c, hc, rfl⟩ := List.mem_map.1 (hf.mem_candidates _ _ hi)
      exact (hiff c hc).2 hi
  · have hlt : slot' < sel.schema.slotCount := hschema ▸ hf'.item_lt hi
    exact ⟨π.symm slot', (Schema.EmbedsSlots.of_perm hs (Schema.symm_apply_of_fixed hfix)).lt slot' hlt,
      π.apply_symm_apply slot'⟩
  · obtain ⟨l, _, hx⟩ := List.mem_map.1 (hlinks.mem_iff.2 (List.mem_map.2 ⟨(x, y), ho.mem_linkPairs _ hl, rfl⟩))
    obtain ⟨rfl, hmem⟩ := Prod.mk.inj hx
    exact decide_eq_true_iff.1 (hmem.trans (decide_eq_true hl))
  · have hpair : (x', y') ∈ sel.schema.linkPairs := hschema ▸ ho'.mem_linkPairs _ hl
    obtain ⟨⟨x, y⟩, _, hx⟩ := List.mem_map.1 (hlinks.mem_iff.1 (List.mem_map.2 ⟨(x', y'), hpair, rfl⟩))
    obtain ⟨hxy, hmem⟩ := Prod.mk.inj hx
    obtain ⟨rfl, rfl⟩ := Prod.mk.inj hxy
    exact ⟨x, y, decide_eq_true_iff.1 (hmem.trans (decide_eq_true hl)), rfl, rfl⟩

end Encoding

end MinimalistGrammar
