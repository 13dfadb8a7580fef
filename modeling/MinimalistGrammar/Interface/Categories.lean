/-!
The categories that single words are required to have: one for each word at most, in the order of the words.
-/

namespace MinimalistGrammar

/-- Puts a word in its place with a category, which replaces the one it had. -/
def insertCategory (word category : String) : List (String × String) → List (String × String)
  | [] => [(word, category)]
  | (w, c) :: rest =>
    if word < w then (word, category) :: (w, c) :: rest
    else if word = w then (word, category) :: rest
    else (w, c) :: insertCategory word category rest

theorem mem_insertCategory {word category : String} {p : String × String} {l : List (String × String)}
    (h : p ∈ insertCategory word category l) : p = (word, category) ∨ p ∈ l := by
  induction l with
  | nil => simpa [insertCategory] using h
  | cons q rest ih =>
    obtain ⟨w, c⟩ := q
    simp only [insertCategory] at h
    split at h
    · simpa using h
    · split at h
      · rcases List.mem_cons.1 h with h | h
        · exact .inl h
        · exact .inr (List.mem_cons_of_mem _ h)
      · rcases List.mem_cons.1 h with h | h
        · exact .inr (by simp [h])
        · exact (ih h).imp id (List.mem_cons_of_mem _)

theorem pairwise_insertCategory {word category : String} {l : List (String × String)}
    (h : l.Pairwise (·.1 < ·.1)) : (insertCategory word category l).Pairwise (·.1 < ·.1) := by
  induction l with
  | nil => simp [insertCategory]
  | cons q rest ih =>
    obtain ⟨w, c⟩ := q
    have hw := List.pairwise_cons.1 h
    simp only [insertCategory]
    split
    · rename_i hlt
      refine List.pairwise_cons.2 ⟨fun p hp => ?_, h⟩
      rcases List.mem_cons.1 hp with rfl | hp
      · exact hlt
      · exact String.lt_trans hlt (hw.1 p hp)
    · rename_i hnlt
      split
      · rename_i heq
        subst heq
        exact List.pairwise_cons.2 ⟨hw.1, hw.2⟩
      · rename_i hne
        refine List.pairwise_cons.2 ⟨fun p hp => ?_, ih hw.2⟩
        rcases mem_insertCategory hp with rfl | hp
        · exact Std.lt_of_le_of_ne (String.not_lt.1 hnlt) (Ne.symm hne)
        · exact hw.1 p hp

structure Categories where
  toList : List (String × String) := []
  sorted : toList.Pairwise (·.1 < ·.1) := by simp
deriving DecidableEq, Repr

namespace Categories

instance : EmptyCollection Categories := ⟨{}⟩

instance : Inhabited Categories := ⟨∅⟩

def insert (word category : String) (c : Categories) : Categories :=
  ⟨insertCategory word category c.toList, pairwise_insertCategory c.sorted⟩

/-- Of several categories for one word the last counts. -/
def ofList (l : List (String × String)) : Categories := l.foldl (fun c (w, k) => c.insert w k) ∅

end Categories

end MinimalistGrammar
