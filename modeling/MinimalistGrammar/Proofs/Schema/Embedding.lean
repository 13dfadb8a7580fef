import MinimalistGrammar.Proofs.Encoding.Checking
import MinimalistGrammar.Proofs.Schema.Points
import Mathlib.Logic.Equiv.Defs

/-!
Placing the slots of one schema among those of another for the same sentence. Slots for words stay where they are,
slots for covert items go to any such slots, and points follow their slots. The other slots may have further candidates
and further points for them.
-/

namespace MinimalistGrammar

namespace Schema

/-- Different slots of the one schema go to different slots of the other that hold their candidates, and those for words
stay. -/
structure EmbedsSlots (s s' : Schema) (σ : SlotId → SlotId) : Prop where
  built : s.IsBuilt
  built' : s'.IsBuilt
  words : s'.words = s.words
  lt : ∀ slot < s.slotCount, σ slot < s'.slotCount
  injective : Function.Injective σ
  overt : ∀ slot < s.words.length, σ slot = slot
  candidates : ∀ slot < s.slotCount, (s.candidates slot).map (·.2) ⊆ (s'.candidates (σ slot)).map (·.2)

/-- Points go where their slots go. -/
structure Embeds (s s' : Schema) (σ : SlotId → SlotId) (φ : PointId → PointId) : Prop extends s.EmbedsSlots s' σ where
  pointAt?_map : ∀ p < s.pointCount, s'.pointAt? (σ (s.slotOf p)) (s.point p).index = some (φ p)

/-- Where a point goes when its slot goes to another. -/
def place (s s' : Schema) (σ : SlotId → SlotId) (p : PointId) : PointId :=
  (s'.pointAt? (σ (s.slotOf p)) (s.point p).index).getD 0

variable {s s' : Schema} {σ : SlotId → SlotId} {φ : PointId → PointId} {slot : SlotId} {p q : PointId} {i : Nat}
  {f : Feature}

theorem IsBuilt.mem_candidates (hs : s.IsBuilt) (hslot : slot < s.slotCount) {item : Item} :
    item ∈ (s.candidates slot).map (·.2) ↔ item ∈ s.lexicon.items ∧ item.form = s.words[slot]? := by
  by_cases hw : slot < s.words.length
  · rw [hs.candidates_of_lt hw, Lexicon.mem_pronounced, List.getElem?_eq_getElem hw]
  · rw [hs.candidates_of_le (Nat.le_of_not_lt hw) hslot, Lexicon.mem_covert,
      List.getElem?_eq_none (Nat.le_of_not_lt hw), Item.isCovert, Option.isNone_iff_eq_none]

theorem EmbedsSlots.of_items (hs : s.IsBuilt) (hs' : s'.IsBuilt) (hitems : s.lexicon.items ⊆ s'.lexicon.items)
    (hwords : s'.words = s.words) (hlt : ∀ slot < s.slotCount, σ slot < s'.slotCount) (hinj : Function.Injective σ)
    (hovert : ∀ slot < s.words.length, σ slot = slot) : s.EmbedsSlots s' σ := by
  refine ⟨hs, hs', hwords, hlt, hinj, hovert, fun slot hslot item hitem => ?_⟩
  obtain ⟨hm, hform⟩ := (hs.mem_candidates hslot).1 hitem
  refine (hs'.mem_candidates (hlt slot hslot)).2 ⟨hitems hm, hform.trans ?_⟩
  rw [hwords]
  by_cases hw : slot < s.words.length
  · rw [hovert slot hw]
  · have hw' : ¬σ slot < s.words.length := fun hl => hw (hinj (hovert (σ slot) hl) ▸ hl)
    rw [List.getElem?_eq_none (Nat.le_of_not_lt hw), List.getElem?_eq_none (Nat.le_of_not_lt hw')]

theorem symm_apply_of_fixed {π : Equiv.Perm SlotId} (hfix : ∀ slot, slot ∉ s.covertSlots → π slot = slot) (slot : SlotId)
    (hn : slot ∉ s.covertSlots) : π.symm slot = slot := (Equiv.symm_apply_eq π).2 (hfix slot hn).symm

theorem EmbedsSlots.of_perm {π : Equiv.Perm SlotId} (hs : s.IsBuilt)
    (hfix : ∀ slot, slot ∉ s.covertSlots → π slot = slot) : s.EmbedsSlots s π := by
  refine .of_items hs hs (List.Subset.refl _) rfl (fun slot hlt => ?_) π.injective fun slot hlt => hfix slot fun hm => ?_
  · by_contra hge
    have : π (π slot) = π slot := hfix _ fun hm => hge (mem_covertSlots.1 hm).2
    exact hge (by rwa [π.injective this])
  · exact absurd hlt (Nat.not_lt.2 (mem_covertSlots.1 hm).1)

namespace EmbedsSlots

variable (h : s.EmbedsSlots s' σ)
include h

theorem lt_iff : σ slot < s.words.length ↔ slot < s.words.length := by
  constructor
  · intro hs
    have := h.injective (h.overt (σ slot) hs)
    rwa [← this]
  · intro hs
    rwa [h.overt slot hs]

theorem eq_iff {slot' : SlotId} (hs : slot' < s.words.length) : σ slot = slot' ↔ slot = slot' := by
  constructor
  · intro he
    rw [← h.overt slot' hs] at he
    exact h.injective he
  · rintro rfl
    exact h.overt slot hs

theorem candidates_eq (hlex : s'.lexicon = s.lexicon) (hs : slot < s.slotCount) :
    s'.candidates (σ slot) = s.candidates slot := by
  by_cases hw : slot < s.words.length
  · rw [h.built'.candidates_of_lt (show σ slot < s'.words.length by rw [h.words]; exact h.lt_iff.2 hw), h.built.candidates_of_lt hw,
      hlex]
    simp only [h.words, h.overt slot hw]
  · rw [h.built'.candidates_of_le (by rw [h.words]; exact Nat.le_of_not_lt fun hl => hw (h.lt_iff.1 hl)) (h.lt slot hs),
      h.built.candidates_of_le (Nat.le_of_not_lt hw) hs, hlex]

theorem exists_pointAt? {i : Nat} (hp : s.pointAt? slot i = some p) : ∃ q, s'.pointAt? (σ slot) i = some q := by
  obtain ⟨c, hc, hi⟩ := exists_candidate hp
  obtain ⟨c', hc', he⟩ := List.mem_map.1 (h.candidates slot (lt_slotCount hc) (List.mem_map_of_mem hc))
  exact Schema.exists_pointAt? hc' (he ▸ hi)

theorem embeds_place : s.Embeds s' σ (s.place s' σ) := by
  refine ⟨h, fun p hp => ?_⟩
  obtain ⟨q, hq⟩ := h.exists_pointAt? (h.built.pointAt?_of_lt hp)
  rw [place, hq]
  rfl

end EmbedsSlots

namespace Embeds

variable (h : s.Embeds s' σ φ)
include h

theorem map_lt (hp : p < s.pointCount) : φ p < s'.pointCount :=
  (h.built'.pointAt?_eq_some.1 (h.pointAt?_map p hp)).1

theorem point_map (hp : p < s.pointCount) : s'.point (φ p) = ⟨σ (s.slotOf p), (s.point p).index⟩ :=
  (h.built'.pointAt?_eq_some.1 (h.pointAt?_map p hp)).2

theorem slotOf_map (hp : p < s.pointCount) : s'.slotOf (φ p) = σ (s.slotOf p) :=
  congrArg Point.slot (h.point_map hp)

theorem index_map (hp : p < s.pointCount) : (s'.point (φ p)).index = (s.point p).index := by
  rw [h.point_map hp]

theorem isLexical_map (hp : p < s.pointCount) : (s'.point (φ p)).isLexical = (s.point p).isLexical := by
  rw [Point.isLexical, Point.isLexical, h.index_map hp]

theorem map_inj (hp : p < s.pointCount) (hq : q < s.pointCount) : φ p = φ q ↔ p = q := by
  refine ⟨fun he => ?_, fun he => he ▸ rfl⟩
  have hpoint := h.point_map hp
  rw [he, h.point_map hq] at hpoint
  obtain ⟨hslot, hindex⟩ := Point.mk.inj hpoint
  exact h.built.point_eq hp hq (h.injective hslot.symm) hindex.symm

theorem pointAt?_eq_some (hp : s.pointAt? slot i = some p) : s'.pointAt? (σ slot) i = some (φ p) := by
  obtain ⟨hlt, hpoint⟩ := h.built.pointAt?_eq_some.1 hp
  have := h.pointAt?_map p hlt
  rwa [congrArg Point.index hpoint, show s.slotOf p = slot from congrArg Point.slot hpoint] at this

theorem successor_eq_some (hp : p < s.pointCount) (hs : s.successor p = some q) : s'.successor (φ p) = some (φ q) := by
  rw [successor, h.slotOf_map hp, h.index_map hp]
  exact h.pointAt?_eq_some hs

theorem predecessor_map (hp : p < s.pointCount) :
    s'.predecessor (φ p) = (s.predecessor p).map φ := by
  rw [predecessor, predecessor, h.index_map hp, h.slotOf_map hp]
  cases hi : (s.point p).index with
  | zero => rfl
  | succ i =>
    obtain ⟨c, hc, hlt⟩ := exists_candidate (h.built.pointAt?_of_lt hp)
    obtain ⟨q, hq⟩ := Schema.exists_pointAt? hc (show i < c.2.features.length by omega)
    dsimp only
    rw [hq, h.pointAt?_eq_some hq, Option.map_some]

theorem lexicalPoint_eq (hs : slot < s.slotCount) : s'.lexicalPoint (σ slot) = φ (s.lexicalPoint slot) :=
  Option.some.inj ((h.built'.pointAt?_zero (h.lt slot hs)).symm.trans (h.pointAt?_eq_some (h.built.pointAt?_zero hs)))

theorem pointsAt_prefix (slot : SlotId) : (s.pointsAt slot).map φ <+: s'.pointsAt (σ slot) := by
  rw [List.prefix_iff_getElem?]
  intro i hi
  rw [List.length_map] at hi
  rw [List.getElem_map]
  exact h.pointAt?_eq_some (List.getElem?_eq_getElem hi)

theorem mayCarry_map (hp : p < s.pointCount) (hc : s.MayCarry p f) : s'.MayCarry (φ p) f := by
  obtain ⟨c, hm, hf⟩ := hc
  obtain ⟨c', hm', he⟩ := List.mem_map.1 (h.candidates _ (lt_slotCount hm) (List.mem_map_of_mem hm))
  rw [MayCarry, h.slotOf_map hp, h.index_map hp]
  exact ⟨c', hm', he ▸ hf⟩

theorem mem_linkPairs_map (hl : (p, q) ∈ s.linkPairs) : (φ p, φ q) ∈ s'.linkPairs := by
  obtain ⟨⟨hp, hq⟩, hslot, f, g, hf, hg, hc⟩ := mem_linkPairs.1 hl
  refine mem_linkPairs.2 ⟨⟨h.map_lt hp, h.map_lt hq⟩, ?_, f, g, h.mayCarry_map hp hf, h.mayCarry_map hq hg, hc⟩
  rw [h.slotOf_map hp, h.slotOf_map hq]
  exact fun he => hslot (h.injective he)

end Embeds

end Schema

end MinimalistGrammar
