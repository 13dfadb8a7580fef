import MinimalistGrammar.Proofs.Schema.Points
import Mathlib.Logic.Equiv.Defs

/-!
The schema as a table. Its points are the pairs of a slot and an index below the width of the slot, numbered slot by slot;
the points of a slot form a chain; the slots are those of the words, then the covert ones; and a slot is as wide as its
longest candidate.
-/

namespace MinimalistGrammar

/-- Points come slot by slot, and in a slot by index. -/
def Point.Precedes (x y : Point) : Prop := x.slot < y.slot ∨ x.slot = y.slot ∧ x.index < y.index

theorem Point.Precedes.asymm {x y : Point} (h : x.Precedes y) : ¬y.Precedes x := by
  rw [Precedes] at h ⊢
  grind

theorem Point.precedes_irrefl (x : Point) : ¬x.Precedes x := fun h => h.asymm h

namespace Schema

/-- How many points a slot has; none if there is no such slot. -/
def width (s : Schema) (slot : SlotId) : Nat := (s.pointsAt slot).length

/-- The pairs of a slot and an index below its width have one point each, and these are all points, in the order of the
pairs. -/
structure IsNumbered (s : Schema) : Prop where
  numbering : ∃ e : {x : Point // x.index < s.width x.slot} ≃ Fin s.pointCount,
    (∀ x, s.pointAt? x.1.slot x.1.index = some (e x).1) ∧ (∀ p, s.point p.1 = (e.symm p).1) ∧
      ∀ x y, e x < e y ↔ x.1.Precedes y.1
  beyond : ∀ slot i, s.width slot ≤ i → s.pointAt? slot i = none

/-- A step forward and a step back undo each other, stay in the slot and fail just at its ends. -/
structure IsChained (s : Schema) : Prop where
  forward : ∀ p < s.pointCount, ∀ q, s.successor p = some q →
    q < s.pointCount ∧ s.slotOf q = s.slotOf p ∧ (s.point q).index = (s.point p).index + 1
  back : ∀ p < s.pointCount, ∀ q, s.predecessor p = some q →
    q < s.pointCount ∧ s.slotOf q = s.slotOf p ∧ (s.point p).index = (s.point q).index + 1
  inverse : ∀ p < s.pointCount, ∀ q < s.pointCount, s.successor p = some q ↔ s.predecessor q = some p
  last : ∀ p < s.pointCount, s.successor p = none ↔ ∀ q < s.pointCount, s.slotOf q = s.slotOf p → q ≤ p
  first : ∀ p < s.pointCount, s.predecessor p = none ↔ ∀ q < s.pointCount, s.slotOf q = s.slotOf p → p ≤ q

/-- Every word has a slot, for the items pronounced like it. The other slots are the covert ones, all for the same items;
if there are such items, they are as many as the bounds allow. -/
structure HoldsSentence (s : Schema) : Prop where
  overt : ∀ i (hi : i < s.words.length), ∃ slot, s.overtSlot? i = some slot ∧
    s.candidates slot = s.lexicon.pronounced s.words[i] ∧ s.candidates slot ≠ []
  position : ∀ slot i, s.overtSlot? i = some slot ↔ ∃ x, s.slots[slot]? = some x ∧ x.position = some i
  remaining : ∀ slot, slot ∈ s.covertSlots ↔ slot < s.slotCount ∧ ∀ i, s.overtSlot? i ≠ some slot
  covert : ∀ slot, slot ∈ s.covertSlots ↔ ∃ x, s.slots[slot]? = some x ∧ x.isCovert = true
  shared : ∀ slot ∈ s.covertSlots, s.candidates slot = s.lexicon.covert
  room : s.covertSlots.length = if s.lexicon.covert = [] then 0 else s.bounds.emptyItems

/-- Every feature of every candidate has a point of the slot. A point has no features but these, and some candidate has
one at the last point. -/
structure IsCovered (s : Schema) : Prop where
  point : ∀ slot, ∀ c ∈ s.candidates slot, ∀ i f, c.2.feature? i = some f →
    ∃ p, s.pointAt? slot i = some p ∧ (c.1, f) ∈ s.featuresAt p
  only : ∀ p, ∀ x ∈ s.featuresAt p, ∃ c ∈ s.candidates (s.slotOf p),
    c.1 = x.1 ∧ c.2.feature? (s.point p).index = some x.2
  last : ∀ slot < s.slotCount, 0 < s.width slot ∧ ∃ c ∈ s.candidates slot, c.2.features.length = s.width slot

variable {s : Schema} {slot : SlotId} {p q : PointId} {i : Nat}

theorem lt_width_iff : i < s.width slot ↔ ∃ p, s.pointAt? slot i = some p := by
  rw [width, pointAt?, ← Option.isSome_iff_exists, isSome_getElem?]

theorem length_le_width {c : ItemId × Item} (hc : c ∈ s.candidates slot) : c.2.features.length ≤ s.width slot := by
  by_contra hlt
  have hwide := lt_width_iff.2 (exists_pointAt? hc (Nat.lt_of_not_le hlt))
  exact Nat.lt_irrefl _ hwide

theorem overtSlot?_eq_some : s.overtSlot? i = some slot ↔ i < s.words.length ∧ i = slot := by
  rw [overtSlot?, Option.ite_none_right_eq_some, Option.some.injEq]

theorem mem_featuresAt {x : ItemId × Feature} : x ∈ s.featuresAt p ↔
    ∃ c ∈ s.candidates (s.slotOf p), c.1 = x.1 ∧ c.2.feature? (s.point p).index = some x.2 := by
  rw [featuresAt, List.mem_filterMap]
  simp [Prod.ext_iff, and_comm]

theorem pairwise_precedes_pointsOf (slots : List Slot) : (pointsOf slots).Pairwise Point.Precedes := by
  rw [pointsOf, List.pairwise_flatMap]
  constructor
  · rintro ⟨slot, id⟩ _
    rw [List.pairwise_map]
    exact List.pairwise_lt_range.imp fun h => .inr ⟨rfl, h⟩
  · -- slots are listed by their numbers, so what comes from different ones is apart by the slot alone
    have hids : (slots.zipIdx.map (·.2)).Pairwise (· < ·) := by
      rw [List.zipIdx_map_snd]
      exact List.pairwise_lt_range'
    refine (List.pairwise_map.1 hids).imp fun hlt x hx y hy => ?_
    obtain ⟨_, _, rfl⟩ := List.mem_map.1 hx
    obtain ⟨_, _, rfl⟩ := List.mem_map.1 hy
    exact .inl hlt

namespace IsBuilt

variable (hs : s.IsBuilt)
include hs

theorem precedes_of_lt (h : p < q) (hq : q < s.pointCount) : (s.point p).Precedes (s.point q) := by
  have hpoint : ∀ r, ∀ hr : r < s.pointCount, s.point r = s.points.toList[r] := by
    intro r hr
    rw [pointCount] at hr
    rw [point, Array.getD, dif_pos hr]
    rfl
  have hpairwise : s.points.toList.Pairwise Point.Precedes := by
    rw [hs.points]
    exact pairwise_precedes_pointsOf _
  rw [hpoint p (Nat.lt_trans h hq), hpoint q hq]
  exact List.pairwise_iff_getElem.1 hpairwise p q _ _ h

/-- The numbers of points have the order of the points. -/
theorem lt_iff_precedes (hp : p < s.pointCount) (hq : q < s.pointCount) :
    p < q ↔ (s.point p).Precedes (s.point q) := by
  refine ⟨fun h => hs.precedes_of_lt h hq, fun h => ?_⟩
  rcases Nat.lt_trichotomy p q with hlt | rfl | hgt
  · exact hlt
  · exact absurd h (Point.precedes_irrefl _)
  · exact absurd h (hs.precedes_of_lt hgt hp).asymm

theorem lt_iff_index_lt (hp : p < s.pointCount) (hq : q < s.pointCount) (h : s.slotOf p = s.slotOf q) :
    p < q ↔ (s.point p).index < (s.point q).index := by
  rw [slotOf, slotOf] at h
  rw [hs.lt_iff_precedes hp hq, Point.Precedes, h]
  simp

/-- The pairs of a slot and an index below its width, by the numbers of their points. -/
def numbering : {x : Point // x.index < s.width x.slot} ≃ Fin s.pointCount where
  toFun x := ⟨(s.pointsAt x.1.slot).get ⟨x.1.index, x.2⟩, (hs.pointAt?_eq_some.1 (List.getElem?_eq_getElem x.2)).1⟩
  invFun p := ⟨s.point p, lt_width_iff.2 ⟨p, hs.pointAt?_of_lt p.2⟩⟩
  left_inv x := Subtype.ext (hs.pointAt?_eq_some.1 (List.getElem?_eq_getElem x.2)).2
  right_inv p := Fin.ext (List.getElem_of_getElem? (hs.pointAt?_of_lt p.2)).2

theorem isNumbered : s.IsNumbered := by
  refine ⟨⟨hs.numbering, fun x => List.getElem?_eq_getElem x.2, fun p => rfl, fun x y => ?_⟩, fun slot i hi => ?_⟩
  · have hpoint : ∀ x, s.point (hs.numbering x) = x.1 := fun x =>
      congrArg Subtype.val (hs.numbering.symm_apply_apply x)
    rw [Fin.lt_def, hs.lt_iff_precedes (hs.numbering x).2 (hs.numbering y).2, hpoint, hpoint]
  · exact List.getElem?_eq_none hi

theorem of_successor_eq_some (h : s.successor p = some q) :
    q < s.pointCount ∧ s.slotOf q = s.slotOf p ∧ (s.point q).index = (s.point p).index + 1 := by
  obtain ⟨hq, hpoint⟩ := hs.successor_eq_some.1 h
  rw [slotOf, hpoint]
  exact ⟨hq, rfl, rfl⟩

theorem of_predecessor_eq_some (hp : p < s.pointCount) (h : s.predecessor p = some q) :
    q < s.pointCount ∧ s.slotOf q = s.slotOf p ∧ (s.point p).index = (s.point q).index + 1 := by
  obtain ⟨hq, hnext⟩ := (hs.predecessor_eq_some hp).1 h
  obtain ⟨_, hslot, hindex⟩ := hs.of_successor_eq_some hnext
  exact ⟨hq, hslot.symm, hindex⟩

theorem exists_successor_iff (hp : p < s.pointCount) :
    (∃ r, s.successor p = some r) ↔ ∃ q < s.pointCount, s.slotOf q = s.slotOf p ∧ p < q := by
  constructor
  · rintro ⟨r, hr⟩
    obtain ⟨hlt, hslot, hindex⟩ := hs.of_successor_eq_some hr
    exact ⟨r, hlt, hslot, (hs.lt_iff_index_lt hp hlt hslot.symm).2 (by omega)⟩
  · rintro ⟨q, hq, hslot, h⟩
    -- the slot is wide enough for the later point, so for the one right after `p`
    have hindex := (hs.lt_iff_index_lt hp hq hslot.symm).1 h
    have hwide := lt_width_iff.2 ⟨q, hs.pointAt?_of_lt hq⟩
    rw [hslot] at hwide
    exact lt_width_iff.1 (Nat.lt_of_le_of_lt hindex hwide)

theorem exists_predecessor_iff (hp : p < s.pointCount) :
    (∃ r, s.predecessor p = some r) ↔ ∃ q < s.pointCount, s.slotOf q = s.slotOf p ∧ q < p := by
  constructor
  · rintro ⟨r, hr⟩
    obtain ⟨hlt, hslot, hindex⟩ := hs.of_predecessor_eq_some hp hr
    exact ⟨r, hlt, hslot, (hs.lt_iff_index_lt hlt hp hslot).2 (by omega)⟩
  · rintro ⟨q, hq, hslot, h⟩
    have hindex := (hs.lt_iff_index_lt hq hp hslot).1 h
    rw [← Option.ne_none_iff_exists', ne_eq, hs.predecessor_eq_none hp]
    exact Nat.ne_of_gt (Nat.zero_lt_of_lt hindex)

theorem isChained : s.IsChained := by
  constructor
  case forward => exact fun p _ q h => hs.of_successor_eq_some h
  case back => exact fun p hp q h => hs.of_predecessor_eq_some hp h
  case inverse =>
    intro p hp q hq
    rw [hs.predecessor_eq_some hq, and_iff_right hp]
  case last =>
    intro p hp
    rw [← not_iff_not, ← ne_eq, Option.ne_none_iff_exists', hs.exists_successor_iff hp]
    simp
  case first =>
    intro p hp
    rw [← not_iff_not, ← ne_eq, Option.ne_none_iff_exists', hs.exists_predecessor_iff hp]
    simp

theorem position_eq_of_getElem? {x : Slot} (h : s.slots[slot]? = some x) :
    x.position = if slot < s.words.length then some slot else none := by
  have hposition : _ = if slot < s.words.length then some slot else none := hs.position_eq
  rwa [h] at hposition

theorem overtSlot?_eq_some_iff : s.overtSlot? i = some slot ↔ ∃ x, s.slots[slot]? = some x ∧ x.position = some i := by
  rw [overtSlot?_eq_some]
  constructor
  · rintro ⟨hi, rfl⟩
    have hlt : i < s.slots.size := Nat.lt_of_lt_of_le hi hs.words_le_slotCount
    refine ⟨s.slots[i], Array.getElem?_eq_getElem hlt, ?_⟩
    rw [hs.position_eq_of_getElem? (Array.getElem?_eq_getElem hlt), if_pos hi]
  · rintro ⟨x, hx, hposition⟩
    rw [hs.position_eq_of_getElem? hx, Option.ite_none_right_eq_some] at hposition
    obtain ⟨hlt, rfl⟩ := hposition.imp_right Option.some.inj
    exact ⟨hlt, rfl⟩

theorem isCovert_iff {x : Slot} (h : s.slots[slot]? = some x) : x.isCovert = true ↔ s.words.length ≤ slot := by
  rw [Slot.isCovert, hs.position_eq_of_getElem? h, ← Nat.not_lt]
  by_cases hlt : slot < s.words.length <;> simp [hlt]

theorem mem_covertSlots_iff : slot ∈ s.covertSlots ↔ ∃ x, s.slots[slot]? = some x ∧ x.isCovert = true := by
  rw [mem_covertSlots]
  constructor
  · rintro ⟨hle, hlt⟩
    have hx : s.slots[slot]? = some s.slots[slot] := Array.getElem?_eq_getElem hlt
    exact ⟨_, hx, (hs.isCovert_iff hx).2 hle⟩
  · rintro ⟨x, hx, hc⟩
    exact ⟨(hs.isCovert_iff hx).1 hc, (Array.getElem?_eq_some_iff.1 hx).1⟩

theorem holdsSentence : s.HoldsSentence := by
  constructor
  case overt =>
    intro i hi
    refine ⟨i, if_pos hi, hs.candidates_of_lt hi, ?_⟩
    exact hs.candidates_ne_nil (Nat.lt_of_lt_of_le hi hs.words_le_slotCount)
  case position => exact fun slot i => hs.overtSlot?_eq_some_iff
  case remaining =>
    intro slot
    rw [mem_covertSlots, and_comm, and_congr_right_iff]
    refine fun _ => ⟨fun hle i hi => ?_, fun hno => Nat.le_of_not_lt fun hlt => ?_⟩
    · obtain ⟨hlt, rfl⟩ := overtSlot?_eq_some.1 hi
      exact Nat.not_lt.2 hle hlt
    · exact hno slot (overtSlot?_eq_some.2 ⟨hlt, rfl⟩)
  case covert => exact fun slot => hs.mem_covertSlots_iff
  case shared =>
    intro slot h
    obtain ⟨hle, hlt⟩ := mem_covertSlots.1 h
    exact hs.candidates_of_le hle hlt
  case room =>
    rw [covertSlots, List.length_range', hs.slotCount_eq, Nat.add_sub_cancel_left, covertCount]
    simp

theorem isCovered : s.IsCovered := by
  constructor
  case point =>
    intro slot c hc i f hf
    obtain ⟨p, hp⟩ := exists_pointAt? hc (List.getElem?_eq_some_iff.1 hf).1
    obtain ⟨_, hpoint⟩ := hs.pointAt?_eq_some.1 hp
    refine ⟨p, hp, mem_featuresAt.2 ⟨c, ?_, rfl, ?_⟩⟩
    · rwa [slotOf, hpoint]
    · rwa [hpoint]
  case only => exact fun p x hx => mem_featuresAt.1 hx
  case last =>
    intro slot hslot
    have hpos : 0 < s.width slot := lt_width_iff.2 ⟨_, hs.pointAt?_zero hslot⟩
    obtain ⟨p, hp⟩ := lt_width_iff.1 (Nat.sub_one_lt_of_lt hpos)
    obtain ⟨c, hc, hlt⟩ := exists_candidate hp
    have hle := length_le_width hc
    exact ⟨hpos, c, hc, by omega⟩

end IsBuilt

/-- What is built for a sentence is a consistent table: of its points, of the steps between them, of its slots and of the
features that its points are for. -/
theorem isNumbered_and_isCovered_of_build {lex : Lexicon} {words : List String} {bounds : Bounds}
    (h : build lex words bounds = .ok s) : (s.lexicon = lex ∧ s.words = words ∧ s.bounds = bounds) ∧
      s.IsNumbered ∧ s.IsChained ∧ s.HoldsSentence ∧ s.IsCovered := by
  obtain ⟨_, hinput, hs⟩ := build_eq_ok_iff.1 h
  exact ⟨hinput, hs.isNumbered, hs.isChained, hs.holdsSentence, hs.isCovered⟩

/-- Two nouns of one form and different length, a verb, and two covert items, one of them longer than all words. -/
def unevenItems : Lexicon := ⟨[
  ⟨"subject", [⟨"Theme", .selectee, false⟩, ⟨"case", .licensee, false⟩], some "rain", none, by decide, by decide +kernel⟩,
  ⟨"object", [⟨"Theme", .selectee, false⟩], some "rain", none, isFeatureSequence_selectee "Theme", by decide +kernel⟩,
  ⟨"falls", [⟨"Theme", .selector, false⟩, ⟨"Act", .selectee, false⟩], some "falls", none, by decide, by decide +kernel⟩,
  ⟨"tense", [⟨"Act", .selector, false⟩, ⟨"case", .licensor, false⟩, ⟨"Time", .selectee, false⟩], none, none, by decide,
    isForm_none⟩,
  ⟨"claim", [⟨"Time", .selector, false⟩, ⟨"Claim", .category, false⟩], none, none, isFeatureSequence_clause "Time" "Claim",
    isForm_none⟩], by decide, by decide⟩

/-- Two points for each word and three for each covert slot. -/
theorem isNumbered_and_isCovered_unevenItems : ∃ s, build unevenItems ["rain", "falls"] ⟨2, 1, 0⟩ = .ok s ∧
    s.slotIds.map s.width = [2, 2, 3, 3] ∧ (s.lexicon = unevenItems ∧ s.words = ["rain", "falls"] ∧ s.bounds = ⟨2, 1, 0⟩) ∧
      s.IsNumbered ∧ s.IsChained ∧ s.HoldsSentence ∧ s.IsCovered := by
  have hall : (build unevenItems ["rain", "falls"] ⟨2, 1, 0⟩).toOption.any (fun s =>
      decide (s.slotIds.map s.width = [2, 2, 3, 3])) = true := by
    decide +kernel
  obtain ⟨s, hs, hwidths⟩ := Fallible.exists_of_any hall
  exact ⟨s, hs, of_decide_eq_true hwidths, isNumbered_and_isCovered_of_build hs⟩

end Schema

end MinimalistGrammar
