import MinimalistGrammar.Proofs.Encoding.Basic
import MinimalistGrammar.Proofs.Selection.Embedding
import Mathlib.Data.Fin.Tuple.Sort
import Mathlib.Logic.Function.Basic

/-!
Placing a selection over one schema among the slots of another. Covert slots can be put in order this way, and
slots can be added.
-/

namespace MinimalistGrammar

section Sorting

/-- The places in a stretch of numbers. -/
def stretchEquiv (start length : Nat) : Fin length ≃ {n : Nat // start ≤ n ∧ n < start + length} where
  toFun i := ⟨start + i, by omega⟩
  invFun n := ⟨n.1 - start, by omega⟩
  left_inv i := by simp
  right_inv n := by
    obtain ⟨n, hn⟩ := n
    simp [Nat.add_sub_cancel' hn.1]

theorem exists_perm_sorting (f : Nat → Nat) (start length : Nat) : ∃ π : Equiv.Perm Nat,
    (∀ n, ¬(start ≤ n ∧ n < start + length) → π n = n) ∧
      ∀ n, start ≤ n → n + 1 < start + length → f (π n) ≤ f (π (n + 1)) := by
  let e := stretchEquiv start length
  let τ := Tuple.sort fun i => f (e i)
  refine ⟨τ.extendDomain e, fun n hn => Equiv.Perm.extendDomain_apply_not_subtype _ _ hn, fun n hs hl => ?_⟩
  have hmono := Tuple.monotone_sort fun i => f (e i)
  have happly : ∀ i : Fin length, τ.extendDomain e (start + i) = e (τ i) := fun i =>
    Equiv.Perm.extendDomain_apply_image τ e i
  obtain ⟨i, rfl⟩ := Nat.exists_eq_add_of_le hs
  have hi : i + 1 < length := by omega
  have hle := hmono (Fin.mk_le_mk.2 (Nat.le_succ i) : (⟨i, by omega⟩ : Fin length) ≤ ⟨i + 1, hi⟩)
  have h₁ := happly ⟨i, by omega⟩
  have h₂ := happly ⟨i + 1, hi⟩
  rw [Nat.add_assoc]
  dsimp only at h₁ h₂
  rw [h₁, h₂]
  exact hle

end Sorting

namespace Selection

variable {sel : Selection} {s' : Schema} {σ : SlotId → SlotId} {slot : SlotId}

/-- The selection among the slots of another schema. -/
noncomputable def embed (sel : Selection) (s' : Schema) (σ : SlotId → SlotId) : Selection :=
  (s'.fill (Function.extend σ sel.item? fun _ => none)).withLinks fun l =>
    ∃ x y, (x, y) ∈ sel.links ∧ sel.schema.place s' σ x = l.1 ∧ sel.schema.place s' σ y = l.2

section Offered

variable (ho : sel.IsOffered sel.schema) (h : sel.schema.EmbedsSlots s' σ)
include ho h

theorem isOffered_embed : (sel.embed s' σ).IsOffered s' := by
  have hf := ho.isFilled h.built
  refine isOffered_fill _ fun slot' hs' => ?_
  by_cases hex : ∃ slot, σ slot = slot'
  · obtain ⟨slot, rfl⟩ := hex
    rw [h.injective.extend_apply]
    cases hi : sel.item? slot with
    | none =>
      refine .inl ⟨rfl, ?_⟩
      by_contra hw
      rw [h.words, Nat.not_le, h.lt_iff] at hw
      obtain ⟨item, hitem⟩ := hf.words slot hw
      rw [hi] at hitem
      cases hitem
    | some item => exact .inr ⟨item, h.candidates slot (hf.item_lt hi) (hf.mem_candidates slot item hi), rfl⟩
  · rw [Function.extend_apply' _ _ _ hex]
    refine .inl ⟨rfl, ?_⟩
    by_contra hw
    rw [h.words, Nat.not_le] at hw
    exact hex ⟨slot', h.overt slot' hw⟩

theorem embeds_embed : sel.Embeds (sel.embed s' σ) σ (sel.schema.place s' σ) := by
  have hf := ho.isFilled h.built
  have hf' := (isOffered_embed ho h).isFilled h.built'
  refine ⟨h.embeds_place, hf, hf', fun slot hs => ?_, fun slot' item hi => ?_, fun x y hl => ?_, fun x' y' hl => ?_⟩
  · exact (Schema.item?_fill (h.lt slot hs)).trans (h.injective.extend_apply _ _ _)
  · have hfill : Function.extend σ sel.item? (fun _ => none) slot' = some item :=
      (Schema.item?_fill (hf'.item_lt hi)).symm.trans hi
    by_cases hex : ∃ slot, σ slot = slot'
    · obtain ⟨slot, rfl⟩ := hex
      rw [h.injective.extend_apply] at hfill
      exact ⟨slot, hf.item_lt hfill, rfl⟩
    · rw [Function.extend_apply' _ _ _ hex] at hfill
      cases hfill
  · exact mem_links_withLinks.2 ⟨h.embeds_place.mem_linkPairs_map (ho.mem_linkPairs _ hl), x, y, hl, rfl, rfl⟩
  · obtain ⟨_, x, y, hl, hx, hy⟩ := mem_links_withLinks.1 hl
    exact ⟨x, y, hl, hx, hy⟩

theorem rank_embed (hlex : s'.lexicon = sel.schema.lexicon) (hs : slot < sel.schema.slotCount) :
    (sel.embed s' σ).rank (σ slot) = sel.rank slot := by
  have hlex : (sel.embed s' σ).schema.lexicon = sel.schema.lexicon := hlex
  rw [rank, (embeds_embed ho h).item?_map slot hs, rank, hlex]

end Offered

/-- The covert slots of a selection can be put in order. -/
theorem exists_sorted_embed (ho : sel.IsOffered sel.schema) (hs : sel.schema.IsBuilt) : ∃ π : Equiv.Perm SlotId,
    (∀ slot, slot ∉ sel.schema.covertSlots → π slot = slot) ∧ sel.schema.EmbedsSlots sel.schema π ∧
      (sel.embed sel.schema π).IsSorted := by
  have hcovert : ∀ slot, slot ∈ sel.schema.covertSlots ↔ sel.schema.words.length ≤ slot ∧
      slot < sel.schema.words.length + Schema.covertCount sel.schema.lexicon sel.schema.bounds := by
    intro slot
    rw [Schema.mem_covertSlots, hs.slotCount_eq]
  obtain ⟨π, hfix, hsort⟩ := exists_perm_sorting sel.rank sel.schema.words.length
    (Schema.covertCount sel.schema.lexicon sel.schema.bounds)
  have hfix : ∀ slot, slot ∉ sel.schema.covertSlots → π slot = slot := fun slot hn => hfix slot fun h => hn ((hcovert slot).2 h)
  have hfix' := Schema.symm_apply_of_fixed hfix
  have hemb := Schema.EmbedsSlots.of_perm hs hfix'
  refine ⟨π.symm, hfix', hemb, fun slot hw (hlt : slot + 1 < sel.schema.slotCount) => ?_⟩
  have hrank : ∀ slot < sel.schema.slotCount, (sel.embed sel.schema π.symm).rank slot = sel.rank (π slot) := by
    intro slot hlt
    have := rank_embed ho hemb rfl ((Schema.EmbedsSlots.of_perm hs hfix).lt slot hlt)
    rwa [Equiv.symm_apply_apply] at this
  rw [hrank slot (Nat.lt_of_succ_lt hlt), hrank (slot + 1) hlt]
  exact hsort slot hw (by rwa [hs.slotCount_eq] at hlt)

end Selection

namespace Schema

variable {s s' : Schema}

/-- More items and wider bounds leave all slots where they are. -/
theorem embedsSlots_id (hs : s.IsBuilt) (hs' : s'.IsBuilt) (hitems : s.lexicon.items ⊆ s'.lexicon.items)
    (hwords : s'.words = s.words) (hle : s.bounds.emptyItems ≤ s'.bounds.emptyItems) : s.EmbedsSlots s' id := by
  refine .of_items hs hs' hitems hwords (fun slot hlt => ?_) Function.injective_id fun _ _ => rfl
  have hcount : covertCount s.lexicon s.bounds ≤ covertCount s'.lexicon s'.bounds := by
    rw [covertCount, covertCount]
    split
    · exact Nat.zero_le _
    · rename_i hne
      obtain ⟨c, hc⟩ := List.exists_mem_of_ne_nil _ fun he => hne (List.isEmpty_iff.2 he)
      obtain ⟨hm, hcovert⟩ := Lexicon.mem_covert.1 (List.mem_map_of_mem hc)
      obtain ⟨c', hc', _⟩ := List.mem_map.1 (Lexicon.mem_covert.2 ⟨hitems hm, hcovert⟩)
      rw [if_neg fun he => List.ne_nil_of_mem hc' (List.isEmpty_iff.1 he)]
      exact hle
  rw [hs'.slotCount_eq, hwords]
  rw [hs.slotCount_eq] at hlt
  exact Nat.lt_of_lt_of_le hlt (Nat.add_le_add_left hcount _)

end Schema

end MinimalistGrammar
