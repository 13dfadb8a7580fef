import MinimalistGrammar.Proofs.Fallible
import MinimalistGrammar.Proofs.Lexicon.Sequence
import MinimalistGrammar.Proofs.Schema.Layout
import Mathlib.Data.List.Nodup

/-!
The points of the schema for a sentence: each is a slot with an index, the points of a slot follow one another,
and every feature of every candidate has one.
-/

namespace MinimalistGrammar

namespace Lexicon

variable {lex : Lexicon}

theorem map_toList (lex : Lexicon) : lex.toList.map (·.2) = lex.items := by
  rw [toList, List.map_map]
  exact List.zipIdx_map_fst 0 lex.items

theorem nodup_items (lex : Lexicon) : lex.items.Nodup := lex.labels_nodup.of_map _

theorem nodup_pronounced (lex : Lexicon) (word : String) : ((lex.pronounced word).map (·.2)).Nodup := by
  refine List.Nodup.sublist (List.filter_sublist.map _) ?_
  rw [map_toList]
  exact lex.nodup_items

theorem nodup_covert (lex : Lexicon) : (lex.covert.map (·.2)).Nodup := by
  refine List.Nodup.sublist (List.filter_sublist.map _) ?_
  rw [map_toList]
  exact lex.nodup_items

theorem mem_pronounced {word : String} {item : Item} :
    item ∈ (lex.pronounced word).map (·.2) ↔ item ∈ lex.items ∧ item.form = some word := by
  rw [← map_toList lex]
  simp [pronounced]

theorem mem_covert {item : Item} : item ∈ lex.covert.map (·.2) ↔ item ∈ lex.items ∧ item.isCovert = true := by
  rw [← map_toList lex]
  simp [covert]

end Lexicon

namespace Schema

def covertCount (lex : Lexicon) (bounds : Bounds) : Nat :=
  if lex.covert.isEmpty then 0 else bounds.emptyItems

/-- What fills the slots of a sentence. -/
def specs (lex : Lexicon) (words : List String) (bounds : Bounds) :
    List (Option Nat × List (ItemId × Item)) :=
  words.zipIdx.map (fun (word, i) => (some i, lex.pronounced word)) ++
    List.replicate (covertCount lex bounds) (none, lex.covert)

/-- The slots and points are those of the sentence, and every word has an item. -/
structure IsBuilt (s : Schema) : Prop where
  slots : s.slots = (layOut 0 (specs s.lexicon s.words s.bounds)).toArray
  points : s.points = (pointsOf (layOut 0 (specs s.lexicon s.words s.bounds))).toArray
  pronounced : ∀ word ∈ s.words, s.lexicon.pronounced word ≠ []

theorem overtCandidates_eq_ok {lex : Lexicon} {words : List String} {overt : List (List (ItemId × Item))}
    (h : overtCandidates lex words = .ok overt) :
    overt = words.map lex.pronounced ∧ ∀ word ∈ words, lex.pronounced word ≠ [] := by
  have hall := Fallible.mapM_eq_ok.1 h
  clear h
  induction hall with
  | nil => simp
  | cons hw _ ih =>
    split at hw
    · cases hw
    · rename_i hne
      cases hw
      exact ⟨by rw [List.map_cons, ih.1], List.forall_mem_cons.2 ⟨hne, ih.2⟩⟩

theorem overtCandidates_of_pronounced {lex : Lexicon} {words : List String}
    (h : ∀ word ∈ words, lex.pronounced word ≠ []) :
    overtCandidates lex words = .ok (words.map lex.pronounced) := by
  refine Fallible.mapM_eq_ok.2 ?_
  induction words with
  | nil => exact .nil
  | cons word rest ih =>
    obtain ⟨hw, hrest⟩ := List.forall_mem_cons.1 h
    refine .cons ?_ (ih hrest)
    split
    · contradiction
    · rfl

/-- Some complete derivation may fit the bounds. -/
def HasRoom (lex : Lexicon) (words : List String) (bounds : Bounds) : Prop :=
  bounds.emptyItems = 0 → lex.covert.any (·.2.completesClause) = true →
    (words.map lex.pronounced).flatten.any (·.2.completesClause) = true

variable {lex : Lexicon} {words : List String} {bounds : Bounds} {s : Schema}

theorem build_eq_ok_iff : build lex words bounds = .ok s ↔
    HasRoom lex words bounds ∧ (s.lexicon = lex ∧ s.words = words ∧ s.bounds = bounds) ∧ s.IsBuilt := by
  have hspecs : (words.map lex.pronounced).zipIdx.map (fun x => (some x.2, x.1)) ++
      (if lex.covert.isEmpty then [] else List.replicate bounds.emptyItems lex.covert).map (none, ·) =
        specs lex words bounds := by
    rw [specs, covertCount, List.zipIdx_map, List.map_map]
    congr 1
    split
    · rfl
    · rw [List.map_replicate]
  have hroom : HasRoom lex words bounds ↔ ¬((bounds.emptyItems = 0 && lex.covert.any (·.2.completesClause) &&
      !(words.map lex.pronounced).flatten.any (·.2.completesClause)) = true) := by
    simp [HasRoom]
  have hbuild : (∀ word ∈ words, lex.pronounced word ≠ []) → HasRoom lex words bounds →
      build lex words bounds = .ok ⟨lex, words, bounds, (layOut 0 (specs lex words bounds)).toArray,
        (pointsOf (layOut 0 (specs lex words bounds))).toArray⟩ := by
    intro hp hr
    rw [build, overtCandidates_of_pronounced hp, ← hspecs]
    exact if_neg (hroom.1 hr)
  constructor
  · intro h
    have hr : HasRoom lex words bounds := by
      rw [hroom]
      intro hc
      rw [build] at h
      obtain ⟨overt, ho, h⟩ := Fallible.bind_eq_ok.1 h
      obtain ⟨rfl, _⟩ := overtCandidates_eq_ok (Fallible.mapError_ok_iff.1 ho)
      dsimp only at h
      rw [if_pos hc] at h
      cases h
    have hp : ∀ word ∈ words, lex.pronounced word ≠ [] := by
      obtain ⟨overt, ho, _⟩ := Fallible.bind_eq_ok.1 h
      exact (overtCandidates_eq_ok (Fallible.mapError_ok_iff.1 ho)).2
    cases (hbuild hp hr).symm.trans h
    exact ⟨hr, ⟨rfl, rfl, rfl⟩, ⟨rfl, rfl, hp⟩⟩
  · rintro ⟨hr, ⟨rfl, rfl, rfl⟩, hb⟩
    rw [hbuild hb.pronounced hr, ← hb.slots, ← hb.points]

section Slots

variable {slot : SlotId} {p : PointId} {i : Nat} {c : ItemId × Item}

theorem getElem?_specs_of_lt (h : slot < s.words.length) :
    (specs s.lexicon s.words s.bounds)[slot]? = some (some slot, s.lexicon.pronounced s.words[slot]) := by
  rw [specs, List.getElem?_append_left (by simpa using h), List.getElem?_map,
    List.getElem?_zipIdx, List.getElem?_eq_getElem h]
  simp

theorem candidates_of_slotCount_le (h : s.slotCount ≤ slot) : s.candidates slot = [] := by
  rw [candidates, Array.getElem?_eq_none h]
  rfl

theorem lt_slotCount (h : c ∈ s.candidates slot) : slot < s.slotCount := by
  by_contra hl
  rw [candidates_of_slotCount_le (Nat.le_of_not_lt hl)] at h
  cases h

theorem exists_pointAt? (h : c ∈ s.candidates slot) (hi : i < c.2.features.length) :
    ∃ p, s.pointAt? slot i = some p := by
  rw [candidates] at h
  cases hx : s.slots[slot]? with
  | none => simp [hx] at h
  | some x =>
    rw [hx, Option.map_some, Option.getD_some] at h
    rw [pointAt?, pointsAt, hx, Option.map_some, Option.getD_some]
    exact ⟨_, Slot.getElem?_points.2 ⟨Slot.lt_width_iff.2 ⟨c, h, hi⟩, rfl⟩⟩

theorem exists_candidate (h : s.pointAt? slot i = some p) :
    ∃ c ∈ s.candidates slot, i < c.2.features.length := by
  rw [pointAt?, pointsAt] at h
  cases hx : s.slots[slot]? with
  | none => simp [hx] at h
  | some x =>
    rw [hx, Option.map_some, Option.getD_some, Slot.getElem?_points] at h
    rw [candidates, hx]
    exact Slot.lt_width_iff.1 h.1

end Slots

namespace IsBuilt

variable (hs : s.IsBuilt) {slot : SlotId} {p q : PointId} {i : Nat} {c : ItemId × Item}
include hs

theorem slotCount_eq : s.slotCount = s.words.length + covertCount s.lexicon s.bounds := by
  rw [slotCount, hs.slots, List.size_toArray, length_layOut, specs, List.length_append, List.length_map,
    List.length_zipIdx, List.length_replicate]

theorem words_le_slotCount : s.words.length ≤ s.slotCount := by
  rw [hs.slotCount_eq]
  exact Nat.le_add_right _ _

theorem map_getElem?_slots : s.slots[slot]?.map (fun x => (x.position, x.candidates)) =
    (specs s.lexicon s.words s.bounds)[slot]? := by
  rw [hs.slots, List.getElem?_toArray, ← List.getElem?_map, map_layOut]

theorem getElem?_specs_of_le (h : s.words.length ≤ slot) (hl : slot < s.slotCount) :
    (specs s.lexicon s.words s.bounds)[slot]? = some (none, s.lexicon.covert) := by
  have := hs.slotCount_eq
  rw [specs, List.getElem?_append_right (by simpa using h), List.getElem?_replicate_of_lt]
  simp only [List.length_map, List.length_zipIdx]
  grind

theorem candidates_eq_some {spec : Option Nat × List (ItemId × Item)}
    (h : (specs s.lexicon s.words s.bounds)[slot]? = some spec) : s.candidates slot = spec.2 := by
  rw [← hs.map_getElem?_slots, Option.map_eq_some_iff] at h
  obtain ⟨x, hx, rfl⟩ := h
  rw [candidates, hx]
  rfl

theorem candidates_of_lt (h : slot < s.words.length) :
    s.candidates slot = s.lexicon.pronounced s.words[slot] :=
  hs.candidates_eq_some (getElem?_specs_of_lt h)

theorem candidates_of_le (h : s.words.length ≤ slot) (hl : slot < s.slotCount) :
    s.candidates slot = s.lexicon.covert := hs.candidates_eq_some (hs.getElem?_specs_of_le h hl)

theorem position_eq : s.slots[slot]? >>= (·.position) = if slot < s.words.length then some slot else none := by
  have hget : _ = (specs s.lexicon s.words s.bounds)[slot]? := hs.map_getElem?_slots
  split
  · rename_i h
    rw [getElem?_specs_of_lt h, Option.map_eq_some_iff] at hget
    obtain ⟨x, hx, he⟩ := hget
    rw [hx]
    exact (Prod.mk.inj he).1
  · rename_i h
    by_cases hl : slot < s.slotCount
    · rw [hs.getElem?_specs_of_le (Nat.le_of_not_lt h) hl, Option.map_eq_some_iff] at hget
      obtain ⟨x, hx, he⟩ := hget
      rw [hx]
      exact (Prod.mk.inj he).1
    · rw [Array.getElem?_eq_none (Nat.le_of_not_lt hl)]
      rfl

theorem form_eq (h : c ∈ s.candidates slot) : c.2.form = s.words[slot]? := by
  by_cases hl : slot < s.words.length
  · rw [hs.candidates_of_lt hl, Lexicon.pronounced, List.mem_filter] at h
    rw [List.getElem?_eq_getElem hl]
    simpa using h.2
  · rw [hs.candidates_of_le (Nat.le_of_not_lt hl) (lt_slotCount h), Lexicon.covert, List.mem_filter] at h
    rw [List.getElem?_eq_none (Nat.le_of_not_lt hl)]
    simpa [Item.isCovert] using h.2

theorem nodup_candidates : ((s.candidates slot).map (·.2)).Nodup := by
  by_cases hl : slot < s.words.length
  · rw [hs.candidates_of_lt hl]
    exact s.lexicon.nodup_pronounced _
  · by_cases hc : slot < s.slotCount
    · rw [hs.candidates_of_le (Nat.le_of_not_lt hl) hc]
      exact s.lexicon.nodup_covert
    · rw [candidates_of_slotCount_le (Nat.le_of_not_lt hc)]
      exact List.nodup_nil

theorem candidates_ne_nil (h : slot < s.slotCount) : s.candidates slot ≠ [] := by
  by_cases hl : slot < s.words.length
  · rw [hs.candidates_of_lt hl]
    exact hs.pronounced _ (List.getElem_mem hl)
  · rw [hs.candidates_of_le (Nat.le_of_not_lt hl) h]
    intro hn
    have := hs.slotCount_eq
    rw [covertCount, hn] at this
    grind

theorem pointAt?_eq_some : s.pointAt? slot i = some p ↔ p < s.pointCount ∧ s.point p = ⟨slot, i⟩ := by
  have hpoint : p < s.pointCount ∧ s.point p = ⟨slot, i⟩ ↔ s.points[p]? = some ⟨slot, i⟩ := by
    rw [Array.getElem?_eq_some_iff, point, pointCount]
    constructor
    · rintro ⟨hp, h⟩
      exact ⟨hp, by simpa [Array.getD, hp] using h⟩
    · rintro ⟨hp, h⟩
      exact ⟨hp, by simpa [Array.getD, hp] using h⟩
  rw [hpoint, hs.points, List.getElem?_toArray, getElem?_pointsOf, pointAt?, pointsAt, hs.slots,
    List.getElem?_toArray]
  constructor
  · intro h
    cases hx : (layOut 0 (specs s.lexicon s.words s.bounds))[slot]? with
    | none => simp [hx] at h
    | some x =>
      rw [hx, Option.map_some, Option.getD_some, Slot.getElem?_points] at h
      exact ⟨x, rfl, h⟩
  · rintro ⟨x, hx, hi, he⟩
    rw [hx, Option.map_some, Option.getD_some, Slot.getElem?_points]
    exact ⟨hi, he⟩

theorem pointAt?_of_lt (h : p < s.pointCount) : s.pointAt? (s.slotOf p) (s.point p).index = some p :=
  hs.pointAt?_eq_some.2 ⟨h, rfl⟩

theorem point_injective (hp : p < s.pointCount) (hq : q < s.pointCount) (h : s.point p = s.point q) :
    p = q := by
  have hp' := hs.pointAt?_of_lt hp
  have hq' := hs.pointAt?_of_lt hq
  rw [slotOf, h] at hp'
  exact Option.some.inj (hp'.symm.trans hq')

theorem point_eq (hp : p < s.pointCount) (hq : q < s.pointCount) (hslot : s.slotOf p = s.slotOf q)
    (hindex : (s.point p).index = (s.point q).index) : p = q := by
  refine hs.point_injective hp hq ?_
  cases hx : s.point p
  cases hy : s.point q
  rw [slotOf, slotOf, hx, hy] at hslot
  rw [hx, hy] at hindex
  exact congrArg₂ Point.mk hslot hindex

theorem slotOf_lt (h : p < s.pointCount) : s.slotOf p < s.slotCount := by
  obtain ⟨c, hc, _⟩ := exists_candidate (hs.pointAt?_of_lt h)
  exact lt_slotCount hc

theorem pointAt?_zero (h : slot < s.slotCount) : s.pointAt? slot 0 = some (s.lexicalPoint slot) := by
  obtain ⟨c, hc⟩ := List.exists_mem_of_ne_nil _ (hs.candidates_ne_nil h)
  have hpos : 0 < c.2.features.length := Nat.zero_lt_of_lt c.2.categoryIndex_lt
  obtain ⟨p, hp⟩ := exists_pointAt? hc hpos
  rw [hp]
  rw [pointAt?, pointsAt] at hp
  rw [lexicalPoint]
  cases hx : s.slots[slot]? with
  | none => simp [hx] at hp
  | some x =>
    rw [hx, Option.map_some, Option.getD_some, Slot.getElem?_points] at hp
    rw [Option.map_some, Option.getD_some, hp.2]
    rfl

theorem lexicalPoint_lt (h : slot < s.slotCount) : s.lexicalPoint slot < s.pointCount :=
  (hs.pointAt?_eq_some.1 (hs.pointAt?_zero h)).1

theorem point_lexicalPoint (h : slot < s.slotCount) : s.point (s.lexicalPoint slot) = ⟨slot, 0⟩ :=
  (hs.pointAt?_eq_some.1 (hs.pointAt?_zero h)).2

theorem slotOf_lexicalPoint (h : slot < s.slotCount) : s.slotOf (s.lexicalPoint slot) = slot := by
  rw [slotOf, hs.point_lexicalPoint h]

theorem eq_lexicalPoint (hp : p < s.pointCount) (hi : (s.point p).index = 0) :
    p = s.lexicalPoint (s.slotOf p) := by
  have hslot := hs.slotOf_lt hp
  refine hs.point_eq hp (hs.lexicalPoint_lt hslot) (hs.slotOf_lexicalPoint hslot).symm ?_
  rw [hi, hs.point_lexicalPoint hslot]

theorem successor_eq_some : s.successor p = some q ↔
    q < s.pointCount ∧ s.point q = ⟨s.slotOf p, (s.point p).index + 1⟩ := hs.pointAt?_eq_some

theorem predecessor_eq_some (hp : p < s.pointCount) :
    s.predecessor p = some q ↔ q < s.pointCount ∧ s.successor q = some p := by
  rw [hs.successor_eq_some, predecessor, slotOf, slotOf]
  generalize hpoint : s.point p = x
  obtain ⟨slot, index⟩ := x
  cases index with
  | zero => simp
  | succ index =>
    simp only [hs.pointAt?_eq_some, hp, true_and, Point.mk.injEq]
    constructor
    · rintro ⟨hq, h⟩
      rw [h]
      exact ⟨hq, rfl, rfl⟩
    · rintro ⟨hq, h₁, h₂⟩
      refine ⟨hq, ?_⟩
      rw [h₁, Nat.succ.inj h₂]

theorem predecessor_eq_none (hp : p < s.pointCount) : s.predecessor p = none ↔ (s.point p).index = 0 := by
  rw [predecessor]
  split
  · rename_i h
    simp [h]
  · rename_i index h
    obtain ⟨c, hc, hl⟩ := exists_candidate (hs.pointAt?_of_lt hp)
    obtain ⟨q, hq⟩ := exists_pointAt? hc (i := index) (by omega)
    simp [hq, h]

theorem mem_pointsAt : p ∈ s.pointsAt slot ↔ p < s.pointCount ∧ s.slotOf p = slot := by
  rw [List.mem_iff_getElem?]
  constructor
  · rintro ⟨i, h⟩
    obtain ⟨hp, he⟩ := hs.pointAt?_eq_some.1 h
    exact ⟨hp, by rw [slotOf, he]⟩
  · rintro ⟨hp, rfl⟩
    exact ⟨_, hs.pointAt?_of_lt hp⟩

end IsBuilt

theorem nodup_pointsAt (s : Schema) (slot : SlotId) : (s.pointsAt slot).Nodup := by
  rw [pointsAt]
  cases s.slots[slot]? with
  | none => exact List.nodup_nil
  | some x => exact List.nodup_range'

theorem mem_pointIds {p : PointId} : p ∈ s.pointIds ↔ p < s.pointCount := List.mem_range

theorem nodup_pointIds (s : Schema) : s.pointIds.Nodup := List.nodup_range

theorem nodup_slotIds (s : Schema) : s.slotIds.Nodup := List.nodup_range

theorem mem_slotIds {slot : SlotId} : slot ∈ s.slotIds ↔ slot < s.slotCount := List.mem_range

theorem mem_covertSlots {slot : SlotId} :
    slot ∈ s.covertSlots ↔ s.words.length ≤ slot ∧ slot < s.slotCount := by
  rw [covertSlots, List.mem_range'_1]
  grind

end Schema

end MinimalistGrammar
