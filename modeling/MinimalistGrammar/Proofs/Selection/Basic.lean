import MinimalistGrammar.Proofs.Schema.Points
import MinimalistGrammar.Selection.Derivation

/-!
Selections whose items are candidates of their slots. The features of a slot follow one another from its first
point on, so what stands at a point tells what may stand next to it.
-/

namespace MinimalistGrammar

namespace Selection

variable {sel : Selection}

def Carries (sel : Selection) (p : PointId) (f : Feature) : Prop :=
  p < sel.schema.pointCount ∧ sel.feature? p = some f

/-- Every slot holds one of its candidates, for a word in any case, and checks are between points. -/
structure IsFilled (sel : Selection) : Prop where
  built : sel.schema.IsBuilt
  length_items : sel.items.length = sel.schema.slotCount
  mem_candidates : ∀ slot item, sel.item? slot = some item → item ∈ (sel.schema.candidates slot).map (·.2)
  words : ∀ slot < sel.schema.words.length, ∃ item, sel.item? slot = some item
  links_lt : ∀ x y, (x, y) ∈ sel.links → x < sel.schema.pointCount ∧ y < sel.schema.pointCount
  links_nodup : sel.links.Nodup

theorem mem_active {p : PointId} {f : Feature} : (p, f) ∈ sel.active ↔ sel.Carries p f := by
  simp only [active, List.mem_filterMap, Schema.mem_pointIds, Option.map_eq_some_iff, Prod.mk.injEq]
  constructor
  · rintro ⟨q, hq, g, hg, rfl, rfl⟩
    exact ⟨hq, hg⟩
  · rintro ⟨hp, hf⟩
    exact ⟨p, hp, f, hf, rfl, rfl⟩

theorem Carries.unique {p : PointId} {f g : Feature} (h : sel.Carries p f) (k : sel.Carries p g) : f = g :=
  Option.some.inj (h.2.symm.trans k.2)

theorem carries_iff {p : PointId} {f : Feature} : sel.Carries p f ↔ p < sel.schema.pointCount ∧
    ∃ item, sel.item? (sel.schema.slotOf p) = some item ∧
      item.feature? (sel.schema.point p).index = some f := by
  rw [Carries, feature?, Option.bind_eq_some_iff]

theorem Carries.exists_item {p : PointId} {f : Feature} (h : sel.Carries p f) :
    ∃ item, sel.item? (sel.schema.slotOf p) = some item := by
  obtain ⟨_, item, hi, _⟩ := carries_iff.1 h
  exact ⟨item, hi⟩

namespace IsFilled

variable (hf : sel.IsFilled) {p q : PointId} {f g : Feature} {slot : SlotId} {item : Item} {i : Nat}
include hf

theorem item_lt (h : sel.item? slot = some item) : slot < sel.schema.slotCount := by
  obtain ⟨c, hc, _⟩ := List.mem_map.1 (hf.mem_candidates slot item h)
  exact Schema.lt_slotCount hc

theorem form_eq (h : sel.item? slot = some item) : item.form = sel.schema.words[slot]? := by
  obtain ⟨c, hc, rfl⟩ := List.mem_map.1 (hf.mem_candidates slot item h)
  exact hf.built.form_eq hc

theorem exists_carries (h : sel.item? slot = some item) (hi : item.feature? i = some f) :
    ∃ p, sel.schema.pointAt? slot i = some p ∧ sel.Carries p f := by
  obtain ⟨c, hc, rfl⟩ := List.mem_map.1 (hf.mem_candidates slot item h)
  obtain ⟨p, hp⟩ := Schema.exists_pointAt? hc (Item.lt_length_of_feature? hi)
  obtain ⟨hlt, hpoint⟩ := hf.built.pointAt?_eq_some.1 hp
  refine ⟨p, hp, carries_iff.2 ⟨hlt, c.2, ?_, ?_⟩⟩
  · rw [Schema.slotOf, hpoint]
    exact h
  · rw [hpoint]
    exact hi

theorem carries_lexicalPoint (h : sel.item? slot = some item) :
    ∃ f, sel.Carries (sel.schema.lexicalPoint slot) f ∧ item.feature? 0 = some f := by
  obtain ⟨f, hi⟩ := Item.exists_feature? (Nat.zero_lt_of_lt item.categoryIndex_lt)
  obtain ⟨p, hp, hc⟩ := hf.exists_carries h hi
  rw [hf.built.pointAt?_zero (hf.item_lt h)] at hp
  cases hp
  exact ⟨f, hc, hi⟩

theorem lexicalPoint_lt (hp : p < sel.schema.pointCount) (slot : SlotId) :
    sel.schema.lexicalPoint slot < sel.schema.pointCount := by
  by_cases hs : slot < sel.schema.slotCount
  · exact hf.built.lexicalPoint_lt hs
  · rw [Schema.lexicalPoint, Array.getElem?_eq_none (Nat.not_lt.1 hs)]
    exact Nat.lt_of_le_of_lt (Nat.zero_le _) hp

theorem slotOf_successor (h : sel.schema.successor p = some q) :
    q < sel.schema.pointCount ∧ sel.schema.slotOf q = sel.schema.slotOf p ∧
      (sel.schema.point q).index = (sel.schema.point p).index + 1 := by
  obtain ⟨hq, hpoint⟩ := hf.built.successor_eq_some.1 h
  rw [Schema.slotOf, hpoint]
  exact ⟨hq, rfl, rfl⟩

theorem successor_injective (hp : p < sel.schema.pointCount) {p' : PointId}
    (hp' : p' < sel.schema.pointCount) (h : sel.schema.successor p = some q)
    (h' : sel.schema.successor p' = some q) : p = p' := by
  obtain ⟨_, hs, hi⟩ := hf.slotOf_successor h
  obtain ⟨_, hs', hi'⟩ := hf.slotOf_successor h'
  exact hf.built.point_eq hp hp' (hs.symm.trans hs') (Nat.succ.inj (hi.symm.trans hi'))

/-- A trigger is never its item's last feature, and no licensee follows it. -/
theorem successor_of_isTrigger (h : sel.Carries p f) (ht : f.polarity.isTrigger = true) :
    ∃ q g, sel.schema.successor p = some q ∧ sel.Carries q g ∧ g.polarity ≠ .licensee := by
  obtain ⟨hp, item, hitem, hi⟩ := carries_iff.1 h
  have hlt := (Item.isTrigger_iff hi).1 ht
  obtain ⟨g, hg⟩ := Item.exists_feature? (show (sel.schema.point p).index + 1 < item.features.length by
    have := item.categoryIndex_lt
    omega)
  obtain ⟨q, hq, hc⟩ := hf.exists_carries hitem hg
  refine ⟨q, g, hq, hc, fun hl => ?_⟩
  have := (Item.licensee_iff hg).1 hl
  omega

theorem carries_of_successor (hp : p < sel.schema.pointCount) (h : sel.schema.successor p = some q)
    (hq : sel.Carries q g) : ∃ f, sel.Carries p f ∧ (g.polarity = .licensee ↔ f.polarity.isTarget = true) := by
  obtain ⟨_, hslot, hindex⟩ := hf.slotOf_successor h
  obtain ⟨_, item, hitem, hi⟩ := carries_iff.1 hq
  rw [hslot] at hitem
  rw [hindex] at hi
  obtain ⟨f, hfi⟩ := Item.exists_feature? (show (sel.schema.point p).index < item.features.length by
    have := Item.lt_length_of_feature? hi
    omega)
  refine ⟨f, carries_iff.2 ⟨hp, item, hitem, hfi⟩, ?_⟩
  rw [Item.licensee_iff hi]
  rcases Item.polarity_cases hfi with ⟨hlt, ht⟩ | ⟨he, ht⟩ | ⟨he, ht, hl⟩ | ⟨hlt, ht⟩
  · rw [Polarity.isTarget_of_isTrigger ht]
    exact ⟨fun h => by omega, fun h => by cases h⟩
  · rw [ht]
    exact ⟨fun _ => rfl, fun _ => by omega⟩
  · have := Item.lt_length_of_feature? hi
    omega
  · rw [ht]
    exact ⟨fun _ => rfl, fun _ => by omega⟩

theorem predecessor_of_licensee (h : sel.Carries q g) (hl : g.polarity = .licensee) :
    ∃ p f, sel.schema.predecessor q = some p ∧ sel.Carries p f ∧ f.polarity.isTarget = true := by
  obtain ⟨hq, item, hitem, hi⟩ := carries_iff.1 h
  cases hp : sel.schema.predecessor q with
  | none =>
    have hlt := (Item.licensee_iff hi).1 hl
    have := (hf.built.predecessor_eq_none hq).1 hp
    omega
  | some p =>
    obtain ⟨hlt, hs⟩ := (hf.built.predecessor_eq_some hq).1 hp
    obtain ⟨f, hcf, hiff⟩ := hf.carries_of_successor hlt hs h
    exact ⟨p, f, rfl, hcf, hiff.1 hl⟩

theorem not_carries_of_category (h : sel.Carries p f) (hc : f.polarity = .category)
    (hs : sel.schema.successor p = some q) : ¬sel.Carries q g := by
  intro hq
  obtain ⟨hp, item, hitem, hi⟩ := carries_iff.1 h
  obtain ⟨_, hslot, hindex⟩ := hf.slotOf_successor hs
  obtain ⟨_, item', hitem', hi'⟩ := carries_iff.1 hq
  rw [hslot, hitem, Option.some.injEq] at hitem'
  subst hitem'
  rw [hindex] at hi'
  have := Item.lt_length_of_feature? hi'
  have := Item.length_of_category hi hc
  omega

theorem index_eq_zero_of_movesHead (h : sel.Carries p f) (hm : f.movesHead = true) :
    p = sel.schema.lexicalPoint (sel.schema.slotOf p) ∧ f.polarity = .selector := by
  obtain ⟨hp, item, hitem, hi⟩ := carries_iff.1 h
  obtain ⟨hz, hs⟩ := Item.movesHead_iff_first hi hm
  exact ⟨hf.built.eq_lexicalPoint hp hz, hs⟩

end IsFilled

end Selection

end MinimalistGrammar
