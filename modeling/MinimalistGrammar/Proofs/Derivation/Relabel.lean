import MinimalistGrammar.Proofs.Derivation.Spellout
import Mathlib.Data.List.Basic
import Mathlib.Data.List.Nodup

/-!
Renaming the leaves of a tree. What a tree is spelled as depends on its leaves only up to their names.
-/

namespace MinimalistGrammar

variable {f g : LeafId → LeafId} {t : Tree} {P : LeafId → Prop}

def FeatureRef.rename (f : LeafId → LeafId) (r : FeatureRef) : FeatureRef := ⟨f r.leaf, r.index⟩

def Spellout.rename (f : LeafId → LeafId) (s : Spellout) : Spellout :=
  ⟨s.order.map f, s.waiting.map fun x => (f x.1, x.2.map f)⟩

theorem lookup_map_injective {β : Type} (hf : Function.Injective f) (h : β → β) (l : List (LeafId × β)) (k : LeafId) :
    (l.map fun x => (f x.1, h x.2)).lookup (f k) = (l.lookup k).map h := by
  induction l with
  | nil => rfl
  | cons x l ih =>
    rw [List.map_cons, List.lookup_cons, List.lookup_cons, ih]
    by_cases hx : k = x.1
    · rw [beq_iff_eq.2 hx, beq_iff_eq.2 (congrArg f hx)]
      rfl
    · rw [beq_eq_false_iff_ne.2 hx, beq_eq_false_iff_ne.2 fun he => hx (hf he)]

theorem isLastLanding_rename (hf : Function.Injective f) (landings : List FeatureRef) (r : FeatureRef) :
    isLastLanding (landings.map (·.rename f)) (r.rename f) = isLastLanding landings r := by
  rw [isLastLanding, isLastLanding, List.all_map]
  congr 1
  funext g
  exact congrArg (· || decide (g.index ≤ r.index)) (decide_eq_decide.2 (not_congr hf.eq_iff))

namespace Spellout

theorem take_rename (hf : Function.Injective f) (s : Spellout) (leaf : LeafId) :
    (s.rename f).take (f leaf) = ((s.take leaf).1.map f, (s.take leaf).2.map fun x => (f x.1, x.2.map f)) := by
  rw [take, take, rename]
  refine Prod.ext ?_ ?_
  · dsimp only
    rw [lookup_map_injective hf]
    cases s.waiting.lookup leaf <;> rfl
  · dsimp only
    rw [List.filter_map]
    congr 1
    refine List.filter_congr fun x _ => ?_
    simp [hf.eq_iff]

theorem ofLeaf_rename (hf : Function.Injective f) (hosts : List (LeafId × LeafId)) (leaf : LeafId) :
    ofLeaf (hosts.map fun x => (f x.1, f x.2)) (f leaf) = (ofLeaf hosts leaf).rename f := by
  have hany : (hosts.map fun x => (f x.1, f x.2)).any (·.2 = f leaf) = hosts.any (·.2 = leaf) := by
    simp only [List.any_map, Function.comp_def, hf.eq_iff]
  rw [ofLeaf, ofLeaf, hany, lookup_map_injective hf]
  split
  · rfl
  · cases hosts.lookup leaf <;> rfl

end Spellout

namespace Tree

theorem head_mem_leaves (t : Tree) : t.head ∈ t.leaves := by
  induction t with
  | lexical l => exact List.mem_singleton_self l
  | merge b h a c ihh _ => exact List.mem_append_left _ ihh
  | move h c ih => exact ih

theorem head_relabel (f : LeafId → LeafId) (t : Tree) : (t.relabel f).head = f t.head := by
  induction t with
  | lexical leaf => rfl
  | merge b h a c ih _ => exact ih
  | move h c ih => exact ih

theorem index_relabel (f : LeafId → LeafId) (t : Tree) : (t.relabel f).index = t.index := by
  induction t with
  | lexical leaf => rfl
  | merge b h a c ih _ => exact congrArg (· + 1) ih
  | move h c ih => exact congrArg (· + 1) ih

theorem isLexical_relabel (f : LeafId → LeafId) (t : Tree) : (t.relabel f).isLexical = t.isLexical := by
  cases t <;> rfl

theorem leaves_relabel (f : LeafId → LeafId) (t : Tree) : (t.relabel f).leaves = t.leaves.map f := by
  induction t with
  | lexical leaf => rfl
  | merge b h a c ihh iha => rw [relabel, leaves, leaves, ihh, iha, List.map_append]
  | move h c ih => exact ih

theorem hosts_relabel (f : LeafId → LeafId) (t : Tree) :
    (t.relabel f).hosts = t.hosts.map fun x => (f x.1, f x.2) := by
  induction t with
  | lexical leaf => rfl
  | merge b h a c ihh iha =>
    rw [relabel, hosts, hosts, ihh, iha, List.map_append, List.map_append]
    cases b <;> rfl
  | move h c ih => exact ih

theorem landings_relabel (f : LeafId → LeafId) (t : Tree) :
    (t.relabel f).landings = t.landings.map (·.rename f) := by
  induction t with
  | lexical leaf => rfl
  | merge b h a c ihh iha => rw [relabel, landings, landings, ihh, iha, List.map_append]
  | move h c ih =>
    rw [relabel, landings, landings, ih]
    rfl

theorem spell_relabel (hf : Function.Injective f) (hosts : List (LeafId × LeafId)) (landings : List FeatureRef)
    (t : Tree) : (t.relabel f).spell (hosts.map fun x => (f x.1, f x.2)) (landings.map (·.rename f)) =
      (t.spell hosts landings).rename f := by
  induction t with
  | lexical leaf => exact Spellout.ofLeaf_rename hf hosts leaf
  | merge b h a c ihh iha =>
    have hany : (landings.map (·.rename f)).any (·.leaf = f a.head) = landings.any (·.leaf = a.head) := by
      simp only [List.any_map, Function.comp_def, FeatureRef.rename, hf.eq_iff]
    simp only [relabel, spell, ihh, iha, head_relabel, isLexical_relabel, hany]
    split
    · simp [Spellout.rename]
    · split <;> simp [Spellout.rename]
  | move h c ih =>
    have hlast := isLastLanding_rename hf landings c.target
    simp only [relabel, relabel.rename, spell, ih]
    rw [FeatureRef.rename] at hlast
    rw [hlast]
    split
    · rw [Spellout.take_rename hf]
      simp [Spellout.rename]
    · rfl

theorem spellout_relabel (hf : Function.Injective f) (t : Tree) : (t.relabel f).spellout = t.spellout.map f := by
  rw [spellout, spellout, hosts_relabel, landings_relabel, spell_relabel hf]
  rfl

theorem relabel_relabel (f g : LeafId → LeafId) (t : Tree) : (t.relabel f).relabel g = t.relabel (g ∘ f) := by
  induction t with
  | lexical leaf => rfl
  | merge b h a c ihh iha =>
    rw [relabel, relabel, ihh, iha]
    rfl
  | move h c ih =>
    rw [relabel, relabel, ih]
    rfl

/-- All leaves that occur in the tree or in its checks are such. -/
def Within (P : LeafId → Prop) : Tree → Prop
  | lexical leaf => P leaf
  | merge _ h a c => (P c.trigger.leaf ∧ P c.target.leaf) ∧ h.Within P ∧ a.Within P
  | move h c => (P c.trigger.leaf ∧ P c.target.leaf) ∧ h.Within P

theorem relabel_congr (h : t.Within P) (hfg : ∀ l, P l → f l = g l) : t.relabel f = t.relabel g := by
  induction t with
  | lexical leaf => exact congrArg lexical (hfg leaf h)
  | merge b h' a c ihh iha =>
    obtain ⟨⟨ht, hg⟩, hh, ha⟩ := h
    rw [relabel, relabel, ihh hh, iha ha, relabel.rename, relabel.rename, hfg _ ht, hfg _ hg]
  | move h' c ih =>
    obtain ⟨⟨ht, hg⟩, hh⟩ := h
    rw [relabel, relabel, ih hh, relabel.rename, relabel.rename, hfg _ ht, hfg _ hg]

end Tree

theorem exists_injective_idxOf (l : List LeafId) : ∃ f : LeafId → LeafId, Function.Injective f ∧ ∀ x ∈ l, f x = l.idxOf x := by
  refine ⟨fun x => if x ∈ l then l.idxOf x else l.length + x, fun x y h => ?_, fun x hx => if_pos hx⟩
  dsimp only at h
  split at h <;> split at h
  · rename_i hx hy
    exact (List.idxOf_inj hx).1 h
  · rename_i hx _
    exact absurd h (Nat.ne_of_lt (Nat.lt_of_lt_of_le (List.idxOf_lt_length_of_mem hx) (Nat.le_add_right _ _)))
  · rename_i _ hy
    exact absurd h.symm (Nat.ne_of_lt (Nat.lt_of_lt_of_le (List.idxOf_lt_length_of_mem hy) (Nat.le_add_right _ _)))
  · exact Nat.add_left_cancel h

end MinimalistGrammar
