import Mathlib.Logic.Relation

/-!
Relations that lead each point to at most one other and never back: what leads to a point from two sides has
the last step in common.
-/

open Relation

namespace MinimalistGrammar

variable {α : Type} {r : α → α → Prop} {x y z a u w : α}

theorem transGen_self_of_reflTransGen (hr : ∀ x y z, r x y → r x z → y = z) (h : TransGen r x x)
    (hxy : ReflTransGen r x y) : TransGen r y y := by
  induction hxy with
  | refl => exact h
  | tail _ hs ih =>
    obtain ⟨z, hz, hback⟩ := TransGen.head'_iff.1 ih
    rw [hr _ _ _ hs hz]
    exact TransGen.tail' hback hz

/-- Each point leads to at most one other, and never back to itself. -/
structure IsForest (r : α → α → Prop) : Prop where
  unique : ∀ x y z, r x y → r x z → y = z
  acyclic : ∀ x, ¬TransGen r x x

namespace IsForest

variable (h : IsForest r)
include h

theorem total (hx : ReflTransGen r a x) (hy : ReflTransGen r a y) : ReflTransGen r x y ∨ ReflTransGen r y x :=
  ReflTransGen.total_of_right_unique (fun x y z => h.unique x y z) hx hy

theorem eq_of_step (hu : ReflTransGen r a u) (hw : ReflTransGen r a w) (huz : r u z) (hwz : r w z) : u = w := by
  have one_way : ∀ {u w}, r u z → r w z → ReflTransGen r u w → u = w := by
    intro u w huz hwz huw
    rcases ReflTransGen.cases_head huw with he | ⟨z', hz', hrest⟩
    · exact he
    · rw [h.unique _ _ _ hz' huz] at hrest
      exact absurd (TransGen.tail' hrest hwz) (h.acyclic z)
  rcases h.total hu hw with huw | hwu
  · exact one_way huz hwz huw
  · exact (one_way hwz huz hwu).symm

/-- Two points that are below two siblings are below no other two siblings. -/
theorem siblings_eq {u' w' b z' : α} (hu : ReflTransGen r a u) (hw : ReflTransGen r b w) (huz : r u z)
    (hwz : r w z) (hne : u ≠ w) (hu' : ReflTransGen r a u') (hw' : ReflTransGen r b w') (huz' : r u' z')
    (hwz' : r w' z') (hne' : u' ≠ w') : u = u' ∧ w = w' := by
  -- if one pair were higher, both ways would come to it from the lower pair's parent
  have lower : ∀ {u w z u' w' z'}, ReflTransGen r a u → ReflTransGen r b w → r u z → r w z →
      ReflTransGen r b w' → r u' z' → r w' z' → u' ≠ w' → ReflTransGen r u u' → u = u' := by
    intro u w z u' w' z' _ hw huz hwz hw' huz' hwz' hne' huu'
    rcases ReflTransGen.cases_head huu' with he | ⟨z₁, hz₁, hrest⟩
    · exact he
    · rw [h.unique _ _ _ hz₁ huz] at hrest
      have hb : ReflTransGen r b u' := (hw.tail hwz).trans hrest
      exact absurd (h.eq_of_step hb hw' huz' hwz') hne'
  have hu_eq : u = u' := by
    rcases h.total hu hu' with huu' | hu'u
    · exact lower hu hw huz hwz hw' huz' hwz' hne' huu'
    · exact (lower hu' hw' huz' hwz' hw huz hwz hne hu'u).symm
  subst hu_eq
  refine ⟨rfl, ?_⟩
  rw [h.unique _ _ _ huz' huz] at hwz'
  exact h.eq_of_step hw hw' hwz hwz'

end IsForest

end MinimalistGrammar
