/-!
What can be reached in a finite graph, breadth first.
-/

namespace MinimalistGrammar

variable {α : Type} [DecidableEq α]

/-- The members of a list, each at its first place only. -/
def firstOccurrences : List α → List α
  | [] => []
  | a :: rest => a :: (firstOccurrences rest).filter (· ≠ a)

theorem mem_firstOccurrences {a : α} {l : List α} : a ∈ firstOccurrences l ↔ a ∈ l := by
  induction l with
  | nil => simp [firstOccurrences]
  | cons b rest ih =>
    by_cases h : a = b <;> simp [firstOccurrences, ih, h]

/-- The frontier, and level by level what it leads to among the points that remain. -/
def explore (next : α → List α) (remaining frontier : List α) : List α :=
  match _h : firstOccurrences ((frontier.flatMap next).filter remaining.contains) with
  | [] => frontier
  | a :: found => frontier ++ explore next (remaining.removeAll (a :: found)) (a :: found)
termination_by remaining.length
decreasing_by
  have hm : a ∈ firstOccurrences ((frontier.flatMap next).filter remaining.contains) := by simp [_h]
  have hr : a ∈ remaining := by
    simpa using (List.mem_filter.1 (mem_firstOccurrences.1 hm)).2
  refine List.length_filter_lt_length_iff_exists.2 ⟨a, hr, ?_⟩
  simp

/-- The points of a domain that can be reached from `a`, which comes first. -/
def reachable (next : α → List α) (domain : List α) (a : α) : List α :=
  explore next (domain.filter (· ≠ a)) [a]

end MinimalistGrammar
