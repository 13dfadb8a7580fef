import MinimalistGrammar.Proofs.Grouping

/-!
What is reached is closed under going on: it holds the start, once, and whatever of the domain something
reached leads to.
-/

namespace MinimalistGrammar

variable {α : Type} [DecidableEq α] {next : α → List α} {remaining frontier domain : List α} {a x y : α}

theorem mem_explore_of_mem_frontier (h : x ∈ frontier) : x ∈ explore next remaining frontier := by
  rw [explore]
  split
  · exact h
  · exact List.mem_append_left _ h

theorem mem_explore_of_mem_next (hx : x ∈ explore next remaining frontier) (hy : y ∈ next x)
    (hr : y ∈ remaining) : y ∈ explore next remaining frontier := by
  fun_induction explore next remaining frontier with
  | case1 remaining frontier h =>
    have hy' : y ∈ firstOccurrences ((frontier.flatMap next).filter remaining.contains) := by
      rw [mem_firstOccurrences, List.mem_filter]
      exact ⟨List.mem_flatMap.2 ⟨x, hx, hy⟩, by simpa using hr⟩
    rw [h] at hy'
    cases hy'
  | case2 remaining frontier a found h ih =>
    have hfound : x ∈ frontier → y ∈ a :: found := by
      intro hx
      rw [← h, mem_firstOccurrences, List.mem_filter]
      exact ⟨List.mem_flatMap.2 ⟨x, hx, hy⟩, by simpa using hr⟩
    rw [List.mem_append]
    right
    by_cases hyf : y ∈ a :: found
    · exact mem_explore_of_mem_frontier hyf
    · rcases List.mem_append.1 hx with hx | hx
      · exact absurd (hfound hx) hyf
      · refine ih hx ?_
        rw [List.removeAll, List.mem_filter]
        exact ⟨hr, by simpa using hyf⟩

theorem nodup_explore (hf : frontier.Nodup) (hd : ∀ x ∈ frontier, x ∉ remaining) :
    (explore next remaining frontier).Nodup ∧
      ∀ x ∈ explore next remaining frontier, x ∈ frontier ∨ x ∈ remaining := by
  fun_induction explore next remaining frontier with
  | case1 remaining frontier h => exact ⟨hf, fun x hx => .inl hx⟩
  | case2 remaining frontier a found h ih =>
    have hfound : ∀ x ∈ a :: found, x ∈ remaining := by
      intro x hx
      rw [← h, mem_firstOccurrences, List.mem_filter] at hx
      simpa using hx.2
    have hn : (a :: found).Nodup := h ▸ nodup_firstOccurrences _
    obtain ⟨ihn, ihm⟩ := ih hn fun x hx hr => by
      rw [List.removeAll, List.mem_filter] at hr
      simp [hx] at hr
    have hrest : ∀ x ∈ explore next (remaining.removeAll (a :: found)) (a :: found), x ∈ remaining := by
      intro x hx
      rcases ihm x hx with hx | hx
      · exact hfound x hx
      · exact (List.mem_filter.1 hx).1
    constructor
    · rw [List.nodup_append]
      refine ⟨hf, ihn, fun x hx y hy e => hd x hx ?_⟩
      exact e ▸ hrest y hy
    · intro x hx
      exact (List.mem_append.1 hx).imp id (hrest x)

theorem forall_mem_explore {P : α → Prop} (hf : ∀ x ∈ frontier, P x)
    (hn : ∀ x y, P x → y ∈ next x → y ∈ remaining → P y) (h : x ∈ explore next remaining frontier) : P x := by
  fun_induction explore next remaining frontier with
  | case1 remaining frontier _ => exact hf x h
  | case2 remaining frontier a found hfound ih =>
    have hnew : ∀ y ∈ a :: found, P y := by
      intro y hy
      rw [← hfound, mem_firstOccurrences, List.mem_filter, List.mem_flatMap] at hy
      obtain ⟨⟨z, hz, hyz⟩, hr⟩ := hy
      exact hn z y (hf z hz) hyz (by simpa using hr)
    rcases List.mem_append.1 h with h | h
    · exact hf x h
    · exact ih hnew (fun x y hx hy hr => hn x y hx hy (List.mem_filter.1 hr).1) h

theorem mem_reachable_self : a ∈ reachable next domain a := mem_explore_of_mem_frontier (.head _)

theorem mem_reachable_of_mem_next (hx : x ∈ reachable next domain a) (hy : y ∈ next x) (hd : y ∈ domain) :
    y ∈ reachable next domain a := by
  by_cases ha : y = a
  · exact ha ▸ mem_reachable_self
  · exact mem_explore_of_mem_next hx hy (List.mem_filter.2 ⟨hd, by simpa using ha⟩)

theorem reachable_induction {P : α → Prop} (ha : P a)
    (hn : ∀ x y, P x → y ∈ next x → y ∈ domain → P y) (h : x ∈ reachable next domain a) : P x :=
  forall_mem_explore (by simpa using ha)
    (fun x y hx hy hr => hn x y hx hy (List.mem_filter.1 hr).1) h

theorem reachable_trans (h : x ∈ reachable next domain a) (hy : y ∈ reachable next domain x) :
    y ∈ reachable next domain a :=
  reachable_induction (P := (· ∈ reachable next domain a)) h
    (fun _ _ hx hy hd => mem_reachable_of_mem_next hx hy hd) hy

theorem nodup_reachable : (reachable next domain a).Nodup :=
  (nodup_explore (by simp) (by simp)).1

theorem mem_domain_of_mem_reachable (h : x ∈ reachable next domain a) : x = a ∨ x ∈ domain := by
  rcases (nodup_explore (by simp) (by simp)).2 x h with hx | hx
  · exact .inl (List.mem_singleton.1 hx)
  · exact .inr (List.mem_filter.1 hx).1

theorem exists_reachable_eq_cons : ∃ rest, reachable next domain a = a :: rest := by
  rw [reachable, explore]
  split
  · exact ⟨[], rfl⟩
  · exact ⟨_, rfl⟩

end MinimalistGrammar
