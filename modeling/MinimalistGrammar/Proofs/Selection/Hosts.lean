import MinimalistGrammar.Proofs.Selection.Derivable

/-!
Hosts. A host takes up the head of what its first selector checks, and that head is no host itself.
-/

namespace MinimalistGrammar

namespace Selection

variable {sel : Selection} {slot mover : SlotId}

def IsHost (sel : Selection) (slot : SlotId) : Prop := ∃ item, sel.item? slot = some item ∧ item.attractsHead = true

/-- The slot's item attracts the head of what it selects first, and that is in the other slot. -/
def TakesUp (sel : Selection) (host mover : SlotId) : Prop :=
  sel.IsHost host ∧ ∃ y, (sel.schema.lexicalPoint host, y) ∈ sel.links ∧ sel.schema.slotOf y = mover

theorem isHost_iff (hf : sel.IsFilled) (hs : slot < sel.schema.slotCount) :
    sel.IsHost slot ↔ ∃ f, sel.Carries (sel.schema.lexicalPoint slot) f ∧ f.movesHead = true := by
  have hpoint := hf.built.point_lexicalPoint hs
  have hattracts : ∀ item : Item, item.attractsHead = true ↔ ∃ f, item.feature? 0 = some f ∧ f.movesHead = true := by
    intro item
    rw [Item.attractsHead, Option.any_eq_true, Item.feature?, List.head?_eq_getElem?]
  simp only [carries_iff, Schema.slotOf, hpoint, hf.built.lexicalPoint_lt hs, true_and, IsHost, hattracts]
  constructor
  · rintro ⟨item, hi, f, hf, hm⟩
    exact ⟨f, ⟨item, hi, hf⟩, hm⟩
  · rintro ⟨f, ⟨item, hi, hf⟩, hm⟩
    exact ⟨item, hi, f, hf, hm⟩

theorem mem_hosts {o : Option SlotId} : (slot, o) ∈ sel.hosts ↔
    slot < sel.schema.slotCount ∧ sel.IsHost slot ∧
      o = (sel.partner (sel.schema.lexicalPoint slot)).map sel.schema.slotOf := by
  simp only [hosts, List.mem_map, List.mem_filter, Schema.mem_slotIds, Option.any_eq_true, Prod.mk.injEq, IsHost]
  constructor
  · rintro ⟨s, ⟨hs, hi⟩, rfl, rfl⟩
    exact ⟨hs, by simpa using hi, rfl⟩
  · rintro ⟨hs, hi, rfl⟩
    exact ⟨slot, ⟨hs, by simpa using hi⟩, rfl, rfl⟩

theorem map_fst_hosts : sel.hosts.map (·.1) = sel.schema.slotIds.filter fun slot =>
    (sel.item? slot).any (·.attractsHead) := by
  rw [hosts, List.map_map]
  exact List.map_id _

theorem IsMatching.exists_takesUp (hf : sel.IsFilled) (hm : sel.IsMatching) (hs : slot < sel.schema.slotCount)
    (h : sel.IsHost slot) : ∃ mover, sel.TakesUp slot mover := by
  obtain ⟨f, hc, hmoves⟩ := (isHost_iff hf hs).1 h
  obtain ⟨_, hpol⟩ := hf.index_eq_zero_of_movesHead hc hmoves
  obtain ⟨y, hy⟩ := hm.exists_target _ f hc (by rw [hpol]; rfl)
  exact ⟨_, h, y, hy, rfl⟩

theorem isProperMover_iff (hf : sel.IsFilled) (hm : sel.IsMatching) :
    (∀ host mover, (host, mover) ∈ sel.hosts → sel.isProperMover mover = true) ↔
      ∀ host mover, sel.TakesUp host mover → ¬sel.IsHost mover := by
  have hlt : ∀ slot, sel.IsHost slot → slot < sel.schema.slotCount := fun slot ⟨item, hi, _⟩ => hf.item_lt hi
  have proper : ∀ mover, sel.isProperMover (some mover) = true ↔ ¬sel.IsHost mover := by
    intro mover
    simp only [isProperMover, Option.any_some, Bool.not_eq_true', List.any_eq_false, decide_eq_true_eq, Prod.forall]
    constructor
    · exact fun h hh => h mover _ (mem_hosts.2 ⟨hlt mover hh, hh, rfl⟩) rfl
    · rintro h slot o ho rfl
      exact h (mem_hosts.1 ho).2.1
  constructor
  · rintro h host mover ⟨hh, y, hy, rfl⟩
    have := h host _ (mem_hosts.2 ⟨hlt host hh, hh, rfl⟩)
    rwa [hm.partner_eq_some.2 hy, Option.map_some, proper] at this
  · intro h host o ho
    obtain ⟨hs, hh, rfl⟩ := mem_hosts.1 ho
    obtain ⟨mover, _, y, hy, rfl⟩ := hm.exists_takesUp hf hs hh
    rw [hm.partner_eq_some.2 hy, Option.map_some, proper]
    exact h host _ ⟨hh, y, hy, rfl⟩

end Selection

end MinimalistGrammar
