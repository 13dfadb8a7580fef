import MinimalistGrammar.Derivation.Predication
import MinimalistGrammar.Proofs.Derivation.Relabel
import MinimalistGrammar.Proofs.Grouping

/-!
What a derivation says, as who merges what. Each selector merges one phrase, so the map of the merges can be read as a
relation, and a leaf takes a phrase in a role by its own selectors or by those of the head that selects it.
-/

namespace MinimalistGrammar

variable {d : Derivation} {t u : Tree} {l : LeafId} {r : FeatureRef} {role : Role} {q : Predication} {word : String}

theorem Tree.merges_relabel (f : LeafId → LeafId) (t : Tree) :
    (t.relabel f).merges = t.merges.map fun x => (x.1.rename f, x.2.relabel f) := by
  induction t with
  | lexical leaf => rfl
  | merge b h a c ihh iha =>
    rw [relabel, merges, merges, ihh, iha, List.map_cons, List.map_append]
    rfl
  | move h c ih => exact ih

namespace Derivation

/-- The leaf takes the phrase in the role. -/
inductive Takes (d : Derivation) : LeafId → Role → Tree → Prop
  | obj {l : LeafId} {u : Tree} : (⟨l, 0⟩, u) ∈ d.tree.merges → Takes d l .obj u
  | iobj {l : LeafId} {u : Tree} : (⟨l, 1⟩, u) ∈ d.tree.merges → Takes d l .iobj u
  | subj {l : LeafId} {v u : Tree} : (⟨l, 0⟩, v) ∈ d.tree.merges → (⟨l, 1⟩, u) ∈ d.tree.merges → Takes d v.head .subj u

/-- The predicate has an argument in the role that these words are in. -/
def Says (d : Derivation) (predicate : String) (role : Role) (words : List String) : Prop :=
  ∃ q ∈ d.predications, (q.predicate = predicate ∧ q.role = role) ∧ ∀ word ∈ words, word ∈ q.argument

instance {predicate : String} {words : List String} : Decidable (d.Says predicate role words) :=
  inferInstanceAs (Decidable (∃ q ∈ _, _))

theorem mem_wordsOf : word ∈ d.wordsOf t ↔
    ∃ l ∈ t.leaves, ∃ leaf, d.leaf? l = some leaf ∧ leaf.position.isSome = true ∧ leaf.form = some word := by
  simp only [wordsOf, List.mem_map, List.mem_mergeSort, List.mem_filterMap, Option.bind_eq_some_iff, Option.map_eq_some_iff,
    Option.isSome_iff_exists]
  constructor
  · rintro ⟨_, ⟨l, hl, leaf, hleaf, position, hposition, _, hform, rfl⟩, rfl⟩
    exact ⟨l, hl, leaf, hleaf, ⟨position, hposition⟩, hform⟩
  · rintro ⟨l, hl, leaf, hleaf, ⟨position, hposition⟩, hform⟩
    exact ⟨_, ⟨l, hl, leaf, hleaf, position, hposition, word, hform, rfl⟩, rfl⟩

theorem predication?_eq_some : d.predication? l role u = some q ↔
    (d.leaf? l).bind (·.form) = some q.predicate ∧ q.role = role ∧ q.argument = d.wordsOf u := by
  rw [predication?, Option.map_eq_some_iff]
  constructor
  · rintro ⟨_, hform, rfl⟩
    exact ⟨hform, rfl, rfl⟩
  · rintro ⟨hform, rfl, hargument⟩
    exact ⟨_, hform, by rw [← hargument]⟩

/-- Where each selector merges one phrase, the predications are what the pronounced leaves take. -/
theorem mem_predications (hu : ∀ r u u', (r, u) ∈ d.tree.merges → (r, u') ∈ d.tree.merges → u = u') :
    q ∈ d.predications ↔ ∃ l u, d.Takes l q.role u ∧ d.predication? l q.role u = some q := by
  simp only [predications, mem_firstOccurrences, List.mem_mergeSort, List.mem_flatMap, Prod.exists]
  constructor
  · rintro ⟨⟨l, i⟩, v, hv, hq⟩
    rcases i with _ | _ | i
    · rcases List.mem_append.1 hq with hq | hq <;> rw [Option.mem_toList] at hq
      · obtain ⟨_, hrole, _⟩ := predication?_eq_some.1 hq
        exact ⟨l, v, hrole ▸ .obj hv, hrole ▸ hq⟩
      · obtain ⟨u, hlookup, hq⟩ := Option.bind_eq_some_iff.1 hq
        obtain ⟨_, hrole, _⟩ := predication?_eq_some.1 hq
        exact ⟨v.head, u, hrole ▸ .subj hv (mem_of_lookup hlookup), hrole ▸ hq⟩
    · have hq := Option.mem_toList.1 hq
      obtain ⟨_, hrole, _⟩ := predication?_eq_some.1 hq
      exact ⟨l, v, hrole ▸ .iobj hv, hrole ▸ hq⟩
    · cases hq
  · rintro ⟨l, u, ht, hq⟩
    generalize q.role = role at ht hq
    cases ht with
    | obj hu => exact ⟨⟨l, 0⟩, u, hu, List.mem_append_left _ (Option.mem_toList.2 hq)⟩
    | iobj hu => exact ⟨⟨l, 1⟩, u, hu, Option.mem_toList.2 hq⟩
    | @subj l v _ hv hmerges =>
      refine ⟨⟨l, 0⟩, v, hv, List.mem_append_right _ (Option.mem_toList.2 ?_)⟩
      rw [lookup_of_mem_of_unique (hu _) hmerges]
      exact hq

end Derivation

end MinimalistGrammar
