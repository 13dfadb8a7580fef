import MinimalistGrammar.Proofs.Parse.ShortestMove
import MinimalistGrammar.Proofs.Parse.Validity
import Mathlib.Data.Fintype.Sum
import Mathlib.GroupTheory.Perm.Support

/-!
What an assignment says of the choices and links is all that its derivation depends on, and the derivation tells it
again, up to the order of the covert slots.
-/

namespace MinimalistGrammar

open MinimalistGrammar.Sat

open Fallible

/-- An injection on some members of a finite set is part of a permutation of the set. -/
theorem exists_perm_extending {S : Finset Nat} {A : Set Nat} {f : Nat → Nat} (hA : ∀ n ∈ A, n ∈ S ∧ f n ∈ S)
    (hinj : Set.InjOn f A) : ∃ π : Equiv.Perm Nat, (∀ n, n ∉ S → π n = n) ∧ ∀ n ∈ A, π n = f n := by
  have hmaps : Set.MapsTo (fun x : S => f x) {x : S | x.1 ∈ A} S := fun x hx => (hA x hx).2
  have hinj' : Set.InjOn (fun x : S => f x) {x : S | x.1 ∈ A} := fun x hx y hy he => Subtype.ext (hinj hx hy he)
  obtain ⟨g, hg⟩ := hmaps.exists_equiv_extend_of_card_eq (Fintype.card_coe S) hinj'
  let π : Equiv.Perm S := g
  refine ⟨π.ofSubtype, fun n hn => π.ofSubtype_apply_of_not_mem hn, fun n hn => ?_⟩
  exact (π.ofSubtype_apply_of_mem (hA n hn).1).trans (hg ⟨n, (hA n hn).1⟩ hn)

namespace Selection

variable {sel sel' : Selection} {d : Derivation} {place place' : SlotId → LeafId} {points points' : List PointId}
  {slot slot' : SlotId} {item item' : Item} {x y : PointId}

theorem eq_of_leaf?_eq (hf : sel.IsFilled) (hf' : sel'.IsFilled) (hs : sel'.schema = sel.schema)
    (hi : sel.item? slot = some item) (hi' : sel'.item? slot' = some item') (h : sel'.leaf? slot' = sel.leaf? slot) :
    item' = item ∧ (slot' < sel.schema.words.length ∨ slot < sel.schema.words.length → slot' = slot) := by
  obtain ⟨leaf, hl⟩ := leaf?_eq_some hi
  have hpos := (leaf?_spec hf hl).2.symm.trans (leaf?_spec hf' (h.trans hl)).2
  rw [hs] at hpos
  rw [leaf?, hi', leaf?, hi, Option.map_some, Option.map_some, Option.some.injEq, Leaf.mk.injEq] at h
  obtain ⟨hlabel, hform, hmeaning, hfeatures, _⟩ := h
  obtain ⟨label, features, form, meaning, _, _⟩ := item
  obtain ⟨label', features', form', meaning', _, _⟩ := item'
  cases hlabel
  cases hform
  cases hmeaning
  cases hfeatures
  refine ⟨rfl, fun hw => ?_⟩
  split at hpos
  · split at hpos
    · exact (Option.some.inj hpos).symm
    · cases hpos
  · rename_i hn
    rw [if_pos (hw.resolve_right hn)] at hpos
    cases hpos

namespace Numbered

variable (hf : sel.IsFilled) (hf' : sel'.IsFilled) (hs : sel'.schema = sel.schema) (hn : sel.Numbered d place points)
  (hn' : sel'.Numbered d place' points')
include hn hn'

section Slots

include hf hf' hs

theorem exists_counterpart (hi : sel.item? slot = some item) : ∃ slot', sel'.item? slot' = some item ∧
    place' slot' = place slot ∧ (slot' < sel.schema.words.length ∨ slot < sel.schema.words.length → slot' = slot) := by
  obtain ⟨leaf, hl⟩ := leaf?_eq_some hi
  obtain ⟨slot', item', hi', he⟩ := hn'.exists_slot _ leaf ((hn.leaf? slot item hi).trans hl)
  have hleaf : sel'.leaf? slot' = sel.leaf? slot := by rw [← hn'.leaf? slot' item' hi', he, hn.leaf? slot item hi]
  obtain ⟨rfl, hw⟩ := eq_of_leaf?_eq hf hf' hs hi hi' hleaf
  exact ⟨slot', hi', he, hw⟩

theorem exists_perm : ∃ π : Equiv.Perm SlotId, (∀ slot, slot ∉ sel.schema.covertSlots → π slot = slot) ∧
    ∀ slot item, sel.item? slot = some item → sel'.item? (π slot) = some item ∧ place' (π slot) = place slot := by
  let f : SlotId → SlotId := fun slot => Function.invFun place' (place slot)
  have hcounterpart : ∀ slot item, sel.item? slot = some item → sel'.item? (f slot) = some item ∧
      place' (f slot) = place slot ∧ (f slot < sel.schema.words.length ∨ slot < sel.schema.words.length → f slot = slot) := by
    intro slot item hi
    obtain ⟨slot', hi', he, hw⟩ := exists_counterpart hf hf' hs hn hn' hi
    obtain rfl : f slot = slot' := hn'.injective ((Function.invFun_eq ⟨slot', he⟩).trans he.symm)
    exact ⟨hi', he, hw⟩
  have hcovert : ∀ slot ∈ {slot | sel.schema.words.length ≤ slot ∧ ∃ item, sel.item? slot = some item},
      slot ∈ sel.schema.covertSlots.toFinset ∧ f slot ∈ sel.schema.covertSlots.toFinset := by
    rintro slot ⟨hle, item, hi⟩
    obtain ⟨hi', _, hw⟩ := hcounterpart slot item hi
    rw [List.mem_toFinset, List.mem_toFinset, Schema.mem_covertSlots, Schema.mem_covertSlots]
    refine ⟨⟨hle, hf.item_lt hi⟩, Nat.le_of_not_lt fun hlt => ?_, hs ▸ hf'.item_lt hi'⟩
    rw [hw (.inl hlt)] at hlt
    exact absurd hle (Nat.not_le.2 hlt)
  have hinj : Set.InjOn f {slot | sel.schema.words.length ≤ slot ∧ ∃ item, sel.item? slot = some item} := by
    rintro slot ⟨_, item, hi⟩ slot₁ ⟨_, item₁, hi₁⟩ he
    have hplace := (hcounterpart slot item hi).2.1
    rw [he, (hcounterpart slot₁ item₁ hi₁).2.1] at hplace
    exact hn.injective hplace.symm
  obtain ⟨π, hfix, hext⟩ := exists_perm_extending hcovert hinj
  have hfix : ∀ slot, slot ∉ sel.schema.covertSlots → π slot = slot := fun slot hn => hfix slot (by rwa [List.mem_toFinset])
  refine ⟨π, hfix, fun slot item hi => ?_⟩
  obtain ⟨hi', he, hw⟩ := hcounterpart slot item hi
  have heq : π slot = f slot := by
    by_cases hlt : slot < sel.schema.words.length
    · rw [hw (.inr hlt)]
      exact hfix slot fun hm => absurd hlt (Nat.not_lt.2 (Schema.mem_covertSlots.1 hm).1)
    · exact hext slot ⟨Nat.le_of_not_lt hlt, item, hi⟩
  rw [heq]
  exact ⟨hi', he⟩

end Slots

theorem exists_link (hf : sel.IsFilled) (hm : sel.IsMatching) (hl : (x, y) ∈ sel.links) : ∃ x' y', (x', y') ∈ sel'.links ∧
    (sel'.featureRef x').rename place' = (sel.featureRef x).rename place ∧
      (sel'.featureRef y').rename place' = (sel.featureRef y).rename place := by
  obtain ⟨_, _, _, hp⟩ := exists_projects_of_link hf hm hl
  obtain ⟨_, x', y', _, _, _, hp', he⟩ := hn'.exists_projects_of_checksAt (hn.checksAt hf hm hp)
  obtain ⟨hx', hy'⟩ := Check.mk.inj he
  exact ⟨x', y', hp'.link, hx'.symm, hy'.symm⟩

/-- Selections with the same derivation can be placed the one into the other. -/
theorem exists_embeds (hf : sel.IsFilled) (hf' : sel'.IsFilled) (hs : sel'.schema = sel.schema) (hm : sel.IsMatching)
    (hm' : sel'.IsMatching) : ∃ π : Equiv.Perm SlotId, (∀ slot, slot ∉ sel.schema.covertSlots → π slot = slot) ∧
      sel.Embeds sel' π (sel.schema.place sel.schema π) := by
  obtain ⟨π, hfix, hπ⟩ := exists_perm hf hf' hs hn hn'
  have hemb := (Schema.EmbedsSlots.of_perm hf.built hfix).embeds_place
  have hslot : ∀ slot' item, sel'.item? slot' = some item → ∃ slot, sel.item? slot = some item ∧ π slot = slot' := by
    intro slot' item hi'
    obtain ⟨slot, hi, he, _⟩ := exists_counterpart hf' hf hs.symm hn' hn hi'
    exact ⟨slot, hi, hn'.injective ((hπ slot item hi).2.trans he)⟩
  -- the number of its item and its place among the features settle where a point goes
  have hpoint : ∀ {p q f g}, sel.Carries p f → sel'.Carries q g →
      (sel'.featureRef q).rename place' = (sel.featureRef p).rename place → sel.schema.place sel.schema π p = q := by
    intro p q f g hp hq he
    obtain ⟨hslots, hindex⟩ := FeatureRef.mk.inj he
    have hindex : (sel'.schema.point q).index = (sel.schema.point p).index := hindex
    obtain ⟨item, hi⟩ := hp.exists_item
    have hslots : sel'.schema.slotOf q = π (sel.schema.slotOf p) := hn'.injective (hslots.trans (hπ _ item hi).2.symm)
    have hq := hq.1
    rw [hs] at hq hslots hindex
    refine hf.built.point_eq (hemb.map_lt hp.1) hq ?_ ?_
    · rw [hemb.slotOf_map hp.1, hslots]
    · rw [hemb.index_map hp.1, hindex]
  refine ⟨π, hfix, hs ▸ hemb, hf, hf', fun slot _ => ?_, fun slot' item hi' => ?_, fun x y hl => ?_, fun x' y' hl' => ?_⟩
  · refine Option.ext fun item => ⟨fun hi' => ?_, fun hi => (hπ slot item hi).1⟩
    obtain ⟨slot₁, hi, he⟩ := hslot _ item hi'
    rwa [π.injective he] at hi
  · obtain ⟨slot, hi, he⟩ := hslot slot' item hi'
    exact ⟨slot, hf.item_lt hi, he⟩
  · obtain ⟨x', y', hl', hx, hy⟩ := exists_link hn hn' hf hm hl
    obtain ⟨_, _, hcx, hcy, _⟩ := hm.carries_of_link hf hl
    obtain ⟨_, _, hcx', hcy', _⟩ := hm'.carries_of_link hf' hl'
    rwa [hpoint hcx hcx' hx, hpoint hcy hcy' hy]
  · obtain ⟨x, y, hl, hx, hy⟩ := exists_link hn' hn hf' hm' hl'
    obtain ⟨_, _, hcx, hcy, _⟩ := hm.carries_of_link hf hl
    obtain ⟨_, _, hcx', hcy', _⟩ := hm'.carries_of_link hf' hl'
    exact ⟨x, y, hl, hpoint hcx hcx' hx.symm, hpoint hcy hcy' hy.symm⟩

end Numbered

end Selection

namespace Problem

variable {p : Problem} {a a' : Assignment} {d d' : Derivation}

/-- Two assignments have the same derivation if and only if they say the same of the choices and links, once the covert
slots have changed places. -/
theorem eq_iff_exists_transports (hp : p.IsAssembled) (hd : p.extract a = .ok d) (hd' : p.extract a' = .ok d') :
    d = d' ↔ ∃ π : Equiv.Perm SlotId, (∀ slot, slot ∉ p.schema.covertSlots → π slot = slot) ∧
      p.encoding.Transports p.schema π a a' := by
  obtain ⟨sel, hsel, hcheck, hder, _⟩ := extract_eq_ok.1 hd
  obtain ⟨sel', hsel', hcheck', hder', _⟩ := extract_eq_ok.1 hd'
  have hf := (Encoding.isOffered_of_ofAssignment hp.aligns hsel).isFilled hp.isBuilt
  have hf' := (Encoding.isOffered_of_ofAssignment hp.aligns hsel').isFilled hp.isBuilt
  have hs := (Encoding.ofAssignment_eq_ok hsel).1
  have hs' := (Encoding.ofAssignment_eq_ok hsel').1
  have hderivation := (Selection.check_eq_ok_iff hf).1 hcheck
  have hderivation' := (Selection.check_eq_ok_iff hf').1 hcheck'
  constructor
  · rintro rfl
    obtain ⟨_, _, hn⟩ := hderivation.exists_numbered hf hder
    obtain ⟨_, _, hn'⟩ := hderivation'.exists_numbered hf' hder'
    obtain ⟨π, hfix, hemb⟩ := hn.exists_embeds hn' hf hf' (hs'.trans hs.symm) hderivation.toIsMatching
      hderivation'.toIsMatching
    rw [hs] at hfix hemb
    exact ⟨π, hfix, Encoding.transports_of_embeds hp.isBuilt hp.aligns hsel hsel' hemb⟩
  · rintro ⟨π, hfix, ht⟩
    have hemb := Encoding.embeds_of_transports hp.isBuilt hp.aligns hsel hsel' hfix ht
    exact Except.ok.inj ((hemb.derivation_map hderivation hderivation' hder).symm.trans hder')

/-- The covert head stands in the second covert slot, or in the first. -/
theorem exists_transports_otherSlot : ∃ (p : Problem) (d d' : Derivation), p.IsAssembled ∧
    p.extract (· ∈ [0, 1, 3, 5]) = .ok d ∧ p.extract (· ∈ [0, 1, 2, 4]) = .ok d' ∧ (d = d' ↔
      ∃ π : Equiv.Perm SlotId, (∀ slot, slot ∉ p.schema.covertSlots → π slot = slot) ∧
        p.encoding.Transports p.schema π (· ∈ [0, 1, 3, 5]) (· ∈ [0, 1, 2, 4])) := by
  have hall : (Grammar.clauseAndVerb.prepare Grammar.verbAlone).toOption.any (fun p =>
      (p.extract (· ∈ [0, 1, 3, 5])).toOption.any (fun _ => true) &&
        (p.extract (· ∈ [0, 1, 2, 4])).toOption.any fun _ => true) = true := by decide +kernel
  obtain ⟨p, hp, h⟩ := exists_of_any hall
  obtain ⟨h, h'⟩ := Bool.and_eq_true_iff.1 h
  obtain ⟨d, hd, _⟩ := exists_of_any h
  obtain ⟨d', hd', _⟩ := exists_of_any h'
  have hassembled := isAssembled_of_prepare hp
  exact ⟨p, d, d', hassembled, hd, hd', eq_iff_exists_transports hassembled hd hd'⟩

end Problem

end MinimalistGrammar
