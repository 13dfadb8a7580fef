import MinimalistGrammar.Grouping
import MinimalistGrammar.Reachability
import Mathlib.Data.List.Nodup
import Mathlib.Data.List.Perm.Basic

/-!
The groups of a list have distinct keys, and each holds what the list has under its key, in order. Sorting by numbers that
are distinct leaves one order.
-/

namespace MinimalistGrammar

variable {κ α β : Type} [DecidableEq κ] {l : List (κ × α)} {m : List (κ × β)} {k : κ} {b : β}
  {vs : List α}

theorem mem_of_lookup (h : m.lookup k = some b) : (k, b) ∈ m := by
  obtain ⟨_, _, rfl, _⟩ := List.lookup_eq_some_iff.1 h
  simp

theorem exists_lookup (h : k ∈ m.map (·.1)) : ∃ b, m.lookup k = some b := by
  rw [← Option.isSome_iff_exists, Option.isSome_iff_ne_none, ne_eq, List.lookup_eq_none_iff]
  obtain ⟨x, hx, rfl⟩ := List.mem_map.1 h
  exact fun hn => by simpa using hn x hx

theorem lookup_of_mem_of_unique (hu : ∀ b b', (k, b) ∈ m → (k, b') ∈ m → b = b') (h : (k, b) ∈ m) : m.lookup k = some b := by
  obtain ⟨b', hb'⟩ := exists_lookup (List.mem_map_of_mem h)
  rw [hu b b' h (mem_of_lookup hb')]
  exact hb'

theorem lookup_of_mem (hm : (m.map (·.1)).Nodup) (h : (k, b) ∈ m) : m.lookup k = some b :=
  lookup_of_mem_of_unique (fun _ _ hb hb' => (Prod.mk.inj (List.inj_on_of_nodup_map hm hb hb' rfl)).2) h

theorem lookup_congr {m' : List (κ × β)} (h : ∀ k b, (k, b) ∈ m ↔ (k, b) ∈ m')
    (hu : ∀ k b b', (k, b) ∈ m' → (k, b') ∈ m' → b = b') (k : κ) : m.lookup k = m'.lookup k := by
  refine Option.ext fun b => ⟨fun hb => ?_, fun hb => ?_⟩
  · exact lookup_of_mem_of_unique (hu k) ((h k b).1 (mem_of_lookup hb))
  · refine lookup_of_mem_of_unique (fun b b' hb hb' => ?_) ((h k b).2 (mem_of_lookup hb))
    exact hu k b b' ((h k b).1 hb) ((h k b').1 hb')

theorem lookup_map_self {ks : List κ} {F : κ → β} :
    (ks.map fun k => (k, F k)).lookup k = if k ∈ ks then some (F k) else none := by
  induction ks with
  | nil => simp
  | cons k' ks ih =>
    rw [List.map_cons, List.lookup_cons, ih]
    by_cases hk : k = k'
    · simp [hk]
    · simp [hk, beq_eq_false_iff_ne.2 hk]

theorem lookup_zipIdx_reverse {ks : List κ} (hn : ks.Nodup) (hk : k ∈ ks) : ks.zipIdx.reverse.lookup k = some (ks.idxOf k) := by
  refine lookup_of_mem ?_ ?_
  · rwa [List.map_reverse, List.nodup_reverse, List.zipIdx_map_fst]
  · have hlt := List.idxOf_lt_length_of_mem hk
    rw [List.mem_reverse, List.mk_mem_zipIdx_iff_getElem?, List.getElem?_eq_getElem hlt, List.getElem_idxOf hlt]

theorem nodup_firstOccurrences (ks : List κ) : (firstOccurrences ks).Nodup := by
  induction ks with
  | nil => exact .nil
  | cons k ks ih =>
    rw [firstOccurrences, List.nodup_cons]
    exact ⟨by simp, ih.filter _⟩

theorem groupByKey_eq (l : List (κ × α)) : groupByKey l =
    (firstOccurrences (l.map (·.1))).map fun k => (k, (l.filter (·.1 = k)).map (·.2)) := by
  induction l with
  | nil => rfl
  | cons x rest ih =>
    obtain ⟨k', v⟩ := x
    have hvalues : ((groupByKey rest).lookup k').getD [] = (rest.filter (·.1 = k')).map (·.2) := by
      rw [ih, lookup_map_self]
      split
      · rfl
      · rename_i hk
        rw [mem_firstOccurrences] at hk
        rw [Option.getD_none, eq_comm, List.map_eq_nil_iff, List.filter_eq_nil_iff]
        intro x hx he
        exact hk (List.mem_map.2 ⟨x, hx, by simpa using he⟩)
    rw [groupByKey, hvalues, ih, List.map_cons, firstOccurrences, List.map_cons, List.filter_map]
    congr 1
    · simp
    · refine List.map_congr_left fun k hk => ?_
      have hne : k' ≠ k := fun he => by simp [he] at hk
      simp [hne]

theorem nodup_keys_groupByKey (l : List (κ × α)) : ((groupByKey l).map (·.1)).Nodup := by
  rw [groupByKey_eq, List.map_map]
  exact (List.map_id _).symm ▸ nodup_firstOccurrences _

theorem mem_groupByKey :
    (k, vs) ∈ groupByKey l ↔ k ∈ l.map (·.1) ∧ vs = (l.filter (·.1 = k)).map (·.2) := by
  rw [groupByKey_eq, List.mem_map]
  simp only [mem_firstOccurrences, Prod.mk.injEq]
  constructor
  · rintro ⟨k', hk, rfl, rfl⟩
    exact ⟨hk, rfl⟩
  · rintro ⟨hk, rfl⟩
    exact ⟨k, hk, rfl, rfl⟩

theorem mem_keys_groupByKey : k ∈ (groupByKey l).map (·.1) ↔ k ∈ l.map (·.1) := by
  rw [List.mem_map]
  constructor
  · rintro ⟨⟨k', vs⟩, h, rfl⟩
    exact (mem_groupByKey.1 h).1
  · intro h
    exact ⟨_, mem_groupByKey.2 ⟨h, rfl⟩, rfl⟩

section Sorted

variable {α : Type} {x : Nat × α} {xs ys : List (Nat × α)}

theorem perm_insertByKey (x : Nat × α) (ys : List (Nat × α)) : (insertByKey x ys).Perm (x :: ys) := by
  induction ys with
  | nil => exact .refl _
  | cons y ys ih =>
    rw [insertByKey]
    split
    · exact .refl _
    · exact (ih.cons y).trans (.swap x y ys)

theorem pairwise_insertByKey (h : ys.Pairwise (·.1 ≤ ·.1)) : (insertByKey x ys).Pairwise (·.1 ≤ ·.1) := by
  induction ys with
  | nil => exact List.pairwise_singleton _ x
  | cons y ys ih =>
    obtain ⟨hy, hys⟩ := List.pairwise_cons.1 h
    rw [insertByKey]
    split
    · rename_i hle
      refine List.pairwise_cons.2 ⟨fun z hz => ?_, h⟩
      rcases List.mem_cons.1 hz with rfl | hz
      · exact hle
      · exact Nat.le_trans hle (hy z hz)
    · rename_i hlt
      refine List.pairwise_cons.2 ⟨fun z hz => ?_, ih hys⟩
      rcases List.mem_cons.1 ((perm_insertByKey x ys).mem_iff.1 hz) with rfl | hz
      · exact Nat.le_of_not_le hlt
      · exact hy z hz

theorem perm_sortByKey (xs : List (Nat × α)) : (sortByKey xs).Perm xs := by
  induction xs with
  | nil => exact .nil
  | cons x xs ih => exact (perm_insertByKey x _).trans (ih.cons x)

theorem pairwise_sortByKey (xs : List (Nat × α)) : (sortByKey xs).Pairwise (·.1 ≤ ·.1) := by
  induction xs with
  | nil => exact .nil
  | cons x xs ih => exact pairwise_insertByKey ih

theorem sortByKey_eq_of_perm (hp : xs.Perm ys) (hys : ys.Pairwise (·.1 < ·.1)) : sortByKey xs = ys := by
  have hperm := (perm_sortByKey xs).trans hp
  have hn : (ys.map (·.1)).Nodup := List.pairwise_map.2 (hys.imp Nat.ne_of_lt)
  refine hperm.eq_of_pairwise (fun x y hx hy hxy hyx => ?_) (pairwise_sortByKey xs) (hys.imp Nat.le_of_lt)
  exact List.inj_on_of_nodup_map hn (hperm.mem_iff.1 hx) hy (Nat.le_antisymm hxy hyx)

end Sorted

end MinimalistGrammar
