import MinimalistGrammar.Schema
import Mathlib.Tactic.Common

/-!
Slots are laid out without gaps: a point is a slot with an index below its width, and the numbers of points go
through all of them.
-/

namespace MinimalistGrammar

namespace Slot

variable {slot : Slot}

theorem le_foldl_max {l : List Nat} {m n : Nat} : n ≤ l.foldl max m ↔ n ≤ m ∨ ∃ k ∈ l, n ≤ k := by
  induction l generalizing m with
  | nil => simp
  | cons k l ih =>
    have hmax : n ≤ max m k ↔ n ≤ m ∨ n ≤ k := by omega
    rw [List.foldl_cons, ih, hmax, or_assoc]
    simp

theorem lt_width_iff {i : Nat} : i < slot.width ↔ ∃ c ∈ slot.candidates, i < c.2.features.length := by
  rw [width, Nat.lt_iff_add_one_le, le_foldl_max]
  simp only [Nat.not_lt_zero, false_or, List.mem_map, exists_exists_and_eq_and, Nat.add_one_le_iff]

theorem getElem?_points {i p : Nat} : slot.points[i]? = some p ↔ i < slot.width ∧ p = slot.start + i := by
  rw [points, List.getElem?_eq_some_iff]
  simp [eq_comm]

end Slot

namespace Schema

variable {specs : List (Option Nat × List (ItemId × Item))} {start : PointId}

@[simp] theorem length_layOut : (layOut start specs).length = specs.length := by
  induction specs generalizing start with
  | nil => rfl
  | cons spec rest ih =>
    rw [layOut, List.length_cons, List.length_cons, ih]

theorem map_layOut : (layOut start specs).map (fun slot => (slot.position, slot.candidates)) = specs := by
  induction specs generalizing start with
  | nil => rfl
  | cons spec rest ih =>
    rw [layOut, List.map_cons, ih]

theorem start_le {i : Nat} {slot : Slot} (h : (layOut start specs)[i]? = some slot) : start ≤ slot.start := by
  induction specs generalizing start i with
  | nil => simp [layOut] at h
  | cons spec rest ih =>
    cases i with
    | zero =>
      cases h
      exact Nat.le_refl _
    | succ i => exact Nat.le_trans (Nat.le_add_right _ _) (ih h)

/-- Where the points of a layout stand, when its slots are numbered from `first` on. -/
theorem getElem?_flatMap_layOut {first p i j : Nat} :
    (((layOut start specs).zipIdx first).flatMap fun (slot, id) =>
      (List.range slot.width).map fun index => (⟨id, index⟩ : Point))[p]? = some ⟨i, j⟩ ↔
    ∃ slot, first ≤ i ∧ (layOut start specs)[i - first]? = some slot ∧ j < slot.width ∧
      start + p = slot.start + j := by
  -- by the slots: a place below the first one's width is in it, any other among those of the rest
  induction specs generalizing start first p with
  | nil => simp [layOut]
  | cons spec rest ih =>
    rw [layOut, List.zipIdx_cons, List.flatMap_cons]
    generalize hs : (⟨spec.1, spec.2, start⟩ : Slot) = slot
    have hstart : slot.start = start := by rw [← hs]
    by_cases hp : p < slot.width
    · rw [List.getElem?_append_left (by simpa using hp), List.getElem?_map, List.getElem?_range hp]
      constructor
      · intro h
        obtain ⟨rfl, rfl⟩ := Point.mk.inj (Option.some.inj h)
        exact ⟨slot, Nat.le_refl _, by simp, hp, by rw [hstart]⟩
      · rintro ⟨slot', hi, hget, hj, he⟩
        rcases Nat.eq_or_lt_of_le hi with rfl | hlt
        · rw [Nat.sub_self, List.getElem?_cons_zero, Option.some.injEq] at hget
          subst hget
          obtain rfl : p = j := Nat.add_left_cancel (he.trans (congrArg (· + j) hstart))
          rfl
        · obtain ⟨k, rfl⟩ := Nat.exists_eq_add_of_lt hlt
          rw [show first + k + 1 - first = k + 1 by omega, List.getElem?_cons_succ] at hget
          have := start_le hget
          grind
    · rw [List.getElem?_append_right (by simpa using hp), List.length_map, List.length_range, ih]
      constructor
      · rintro ⟨slot', hi, hget, hj, he⟩
        refine ⟨slot', by omega, ?_, hj, by grind⟩
        rw [show i - first = i - (first + 1) + 1 by omega, List.getElem?_cons_succ]
        exact hget
      · rintro ⟨slot', hi, hget, hj, he⟩
        rcases Nat.eq_or_lt_of_le hi with rfl | hlt
        · rw [Nat.sub_self, List.getElem?_cons_zero, Option.some.injEq] at hget
          subst hget
          grind
        · refine ⟨slot', hlt, ?_, hj, by grind⟩
          rw [show i - first = i - (first + 1) + 1 by omega, List.getElem?_cons_succ] at hget
          exact hget

theorem getElem?_pointsOf {p i j : Nat} :
    (pointsOf (layOut 0 specs))[p]? = some ⟨i, j⟩ ↔
      ∃ slot, (layOut 0 specs)[i]? = some slot ∧ j < slot.width ∧ p = slot.start + j := by
  rw [pointsOf, getElem?_flatMap_layOut]
  simp

end Schema

end MinimalistGrammar
