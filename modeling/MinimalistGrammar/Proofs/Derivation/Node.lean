import MinimalistGrammar.Proofs.Derivation.Relabel
import Mathlib.Logic.Relation

/-!
The nodes of a tree are its phrases under numbers, each before its head, and the head before the argument, so the root is
number 0. A walk that starts at the root and visits each node before its head, and the head before
the argument, comes by the nodes in the order of their numbers, and so by each of them once.
-/

namespace MinimalistGrammar

namespace Tree

/-- The nodes of a tree, numbered from `start` on; `phrase` gives the number of the largest phrase that
projects from a leaf. -/
def nodesFrom (phrase : LeafId → NodeId) (start : NodeId) : Tree → List Node
  | lexical leaf => [⟨.lexical leaf, leaf, 0⟩]
  | merge takesHead h a c =>
    let head := start + 1
    let argument := head + h.size
    let operation :=
      if takesHead then .headMove head argument c c.target.leaf else .merge head argument c
    ⟨operation, h.head, h.index + 1⟩ :: (h.nodesFrom phrase head ++ a.nodesFrom phrase argument)
  | move h c =>
    ⟨.move (start + 1) (phrase c.target.leaf) c, h.head, h.index + 1⟩ :: h.nodesFrom phrase (start + 1)

/-- The number of the largest phrase that projects from a leaf. -/
def phraseOf (t : Tree) (leaf : LeafId) : NodeId := t.phrases.findIdx (·.head = leaf)

def nodes (t : Tree) : List Node := t.nodesFrom t.phraseOf 0

end Tree

namespace Operation

/-- The nodes directly below, the head first. A phrase that moves stays where it was first merged. -/
def daughters : Operation → List NodeId
  | lexical _ => []
  | merge h a _ | headMove h a _ _ => [h, a]
  | move h _ _ => [h]

def nodes : Operation → List NodeId
  | lexical _ => []
  | merge h a _ | headMove h a _ _ => [h, a]
  | move h m _ => [h, m]

def leaves : Operation → List LeafId
  | lexical leaf => [leaf]
  | merge _ _ c | move _ _ c => [c.trigger.leaf, c.target.leaf]
  | headMove _ _ c leaf => [c.trigger.leaf, c.target.leaf, leaf]

def rename (f : LeafId → LeafId) : Operation → Operation
  | lexical leaf => lexical (f leaf)
  | merge h a c => merge h a (Tree.relabel.rename f c)
  | headMove h a c leaf => headMove h a (Tree.relabel.rename f c) (f leaf)
  | move h m c => move h m (Tree.relabel.rename f c)

end Operation

def Node.rename (f : LeafId → LeafId) (n : Node) : Node := ⟨n.operation.rename f, f n.head, n.index⟩

/-- The first node stands directly above the second. -/
def IsMother (nodes : List Node) (i j : NodeId) : Prop := ∃ n, nodes[i]? = some n ∧ j ∈ n.operation.daughters

/-- The first node properly dominates the second. -/
def IsAbove (nodes : List Node) : NodeId → NodeId → Prop := Relation.TransGen (IsMother nodes)

/-- Visits what is on a stack, each node before its daughters, and these before the rest. -/
inductive Walk (nodes : List Node) : List NodeId → List NodeId → Prop
  | done : Walk nodes [] []
  | visit {i : NodeId} {n : Node} {stack visited : List NodeId} : nodes[i]? = some n →
      Walk nodes (n.operation.daughters ++ stack) visited → Walk nodes (i :: stack) (i :: visited)

variable {nodes l r : List Node} {i j start : NodeId} {stack visited : List NodeId} {f phrase : LeafId → LeafId}
  {t u h a : Tree} {b : Bool} {c : Check}

theorem FeatureRef.rename_injective (hf : Function.Injective f) : Function.Injective (FeatureRef.rename f) := by
  rintro ⟨l, i⟩ ⟨l', i'⟩ he
  obtain ⟨hl, hi⟩ := FeatureRef.mk.inj he
  exact congrArg₂ FeatureRef.mk (hf hl) hi

theorem Walk.perm (hw : Walk nodes stack visited) :
    visited.Perm (stack ++ visited.flatMap fun i => (nodes[i]?.map (·.operation.daughters)).getD []) := by
  induction hw with
  | done => exact .nil
  | visit hn _ ih =>
    rw [List.flatMap_cons, hn, Option.map_some, Option.getD_some, List.cons_append, ← List.append_assoc]
    exact (ih.trans (List.perm_append_comm.append_right _)).cons _

theorem flatMap_range_getElem? {α β : Type} (l : List α) (k : α → List β) :
    (List.range l.length).flatMap (fun i => (l[i]?.map k).getD []) = l.flatMap k := by
  induction l with
  | nil => rfl
  | cons x l ih =>
    rw [List.length_cons, List.range_succ_eq_map, List.flatMap_cons, List.flatMap_map, List.flatMap_cons]
    exact congrArg (k x ++ ·) ih

/-- A walk from the root by all nodes comes to each other node as a daughter, once. -/
theorem Walk.perm_daughters (hw : Walk nodes [0] (List.range nodes.length)) :
    (0 :: nodes.flatMap (·.operation.daughters)).Perm (List.range nodes.length) := by
  rw [← flatMap_range_getElem?]
  exact hw.perm.symm

theorem Walk.count_daughters (hw : Walk nodes [0] (List.range nodes.length)) (hj : j < nodes.length) :
    (nodes.flatMap (·.operation.daughters)).count j = if j = 0 then 0 else 1 := by
  have hcount := hw.perm_daughters.count_eq j
  rw [List.count_eq_one_of_mem List.nodup_range (List.mem_range.2 hj), List.count_cons] at hcount
  grind

namespace Tree

/-- How the root is built when it has the number `i`. -/
def operationAt (phrase : LeafId → NodeId) (i : NodeId) : Tree → Operation
  | lexical leaf => .lexical leaf
  | merge takesHead h _ c =>
    if takesHead then .headMove (i + 1) (i + 1 + h.size) c c.target.leaf else .merge (i + 1) (i + 1 + h.size) c
  | move _ c => .move (i + 1) (phrase c.target.leaf) c

theorem length_phrases (t : Tree) : t.phrases.length = t.size := by
  induction t with
  | lexical leaf => rfl
  | merge b h a c ihh iha => rw [phrases, List.length_cons, List.length_append, ihh, iha, size]
  | move h c ih => rw [phrases, List.length_cons, ih, size]

theorem nodesFrom_eq (phrase : LeafId → NodeId) (start : NodeId) (t : Tree) : t.nodesFrom phrase start =
    (t.phrases.zipIdx start).map fun x => ⟨x.1.operationAt phrase x.2, x.1.head, x.1.index⟩ := by
  induction t generalizing start with
  | lexical leaf => rfl
  | merge b h a c ihh iha =>
    rw [nodesFrom, ihh, iha, phrases, List.zipIdx_cons, List.map_cons, List.zipIdx_append, List.map_append,
      length_phrases]
    rfl
  | move h c ih =>
    rw [nodesFrom, ih, phrases, List.zipIdx_cons, List.map_cons]
    rfl

theorem getElem?_nodes (t : Tree) (i : NodeId) :
    t.nodes[i]? = t.phrases[i]?.map fun u => ⟨u.operationAt t.phraseOf i, u.head, u.index⟩ := by
  rw [nodes, nodesFrom_eq, List.getElem?_map, List.getElem?_zipIdx, Option.map_map, Nat.zero_add]
  rfl

theorem length_nodes (t : Tree) : t.nodes.length = t.phrases.length := by
  rw [nodes, nodesFrom_eq, List.length_map, List.length_zipIdx]

theorem exists_append_of_getElem? (hu : t.phrases[i]? = some u) :
    ∃ us₁ us₂, t.phrases = us₁ ++ u.phrases ++ us₂ ∧ us₁.length = i := by
  induction t generalizing i with
  | lexical leaf =>
    cases i with
    | zero => exact ⟨[], [], by rw [← Option.some.inj hu]; simp, rfl⟩
    | succ i => cases hu
  | merge b h a c ihh iha =>
    cases i with
    | zero => exact ⟨[], [], by rw [← Option.some.inj hu]; simp, rfl⟩
    | succ i =>
      rw [phrases, List.getElem?_cons_succ] at hu
      rcases Nat.lt_or_ge i h.phrases.length with hi | hi
      · rw [List.getElem?_append_left hi] at hu
        obtain ⟨us₁, us₂, heq, hlen⟩ := ihh hu
        exact ⟨merge b h a c :: us₁, us₂ ++ a.phrases, by simp [phrases, heq], by simp [hlen]⟩
      · rw [List.getElem?_append_right hi] at hu
        obtain ⟨us₁, us₂, heq, hlen⟩ := iha hu
        exact ⟨merge b h a c :: (h.phrases ++ us₁), us₂, by simp [phrases, heq], by simp [hlen]; omega⟩
  | move h c ih =>
    cases i with
    | zero => exact ⟨[], [], by rw [← Option.some.inj hu]; simp, rfl⟩
    | succ i =>
      rw [phrases, List.getElem?_cons_succ] at hu
      obtain ⟨us₁, us₂, heq, hlen⟩ := ih hu
      exact ⟨move h c :: us₁, us₂, by simp [phrases, heq], by simp [hlen]⟩

theorem getElem?_phrases_add {k : Nat} (hu : t.phrases[i]? = some u) (hk : k < u.size) :
    t.phrases[i + k]? = u.phrases[k]? := by
  obtain ⟨us₁, us₂, heq, rfl⟩ := exists_append_of_getElem? hu
  rw [heq, List.append_assoc, List.getElem?_append_right (Nat.le_add_right _ _), Nat.add_sub_cancel_left,
    List.getElem?_append_left (by rwa [length_phrases])]

theorem size_pos (t : Tree) : 0 < t.size := by
  cases t <;> exact Nat.succ_pos _

theorem getElem?_phrases_zero (t : Tree) : t.phrases[0]? = some t := by
  cases t <;> rfl

theorem getElem?_phrases_head (hu : t.phrases[i]? = some (merge b h a c)) : t.phrases[i + 1]? = some h := by
  have hpos := h.size_pos
  rw [getElem?_phrases_add hu (by rw [size]; omega), phrases, List.getElem?_cons_succ,
    List.getElem?_append_left (by rwa [length_phrases]), getElem?_phrases_zero]

theorem getElem?_phrases_argument (hu : t.phrases[i]? = some (merge b h a c)) :
    t.phrases[i + 1 + h.size]? = some a := by
  have hpos := a.size_pos
  rw [Nat.add_assoc, getElem?_phrases_add hu (by rw [size]; omega), phrases, Nat.add_comm 1, List.getElem?_cons_succ,
    List.getElem?_append_right (Nat.le_of_eq (length_phrases h)), length_phrases, Nat.sub_self, getElem?_phrases_zero]

theorem getElem?_phrases_host (hu : t.phrases[i]? = some (move h c)) : t.phrases[i + 1]? = some h := by
  have hpos := h.size_pos
  rw [getElem?_phrases_add hu (by rw [size]; omega), phrases, List.getElem?_cons_succ, getElem?_phrases_zero]

/-- A tree is walked through in the order of its numbers. -/
theorem walk_nodesFrom (hnodes : nodes = l ++ t.nodesFrom phrase start ++ r) (hlen : l.length = start)
    (hw : Walk nodes stack visited) : Walk nodes (start :: stack) (List.range' start t.size ++ visited) := by
  have length_nodesFrom : ∀ (t : Tree) (start : NodeId), (t.nodesFrom phrase start).length = t.size := by
    intro t start
    rw [nodesFrom_eq, List.length_map, List.length_zipIdx, length_phrases]
  -- a walk is put together from its end, so the argument comes before the head
  induction t generalizing start l r stack visited with
  | lexical leaf => exact .visit (n := ⟨.lexical leaf, leaf, 0⟩) (by simp [hnodes, nodesFrom, ← hlen]) hw
  | merge b h a c ihh iha =>
    rw [nodesFrom] at hnodes
    set root : Node := ⟨_, h.head, h.index + 1⟩ with hroot
    have hargument : Walk nodes ((start + 1 + h.size) :: stack) _ :=
      iha (l := l ++ root :: h.nodesFrom phrase (start + 1)) (r := r) (by simp [hnodes]) (by simp [length_nodesFrom, hlen]; omega) hw
    have hhead : Walk nodes ((start + 1) :: _) _ :=
      ihh (l := l ++ [root]) (r := a.nodesFrom phrase (start + 1 + h.size) ++ r) (by simp [hnodes]) (by simp [hlen]) hargument
    rw [← List.append_assoc, List.range'_append_1] at hhead
    rw [size, List.range'_succ]
    refine .visit (n := root) (by simp [hnodes, ← hlen]) ?_
    have hdaughters : root.operation.daughters = [start + 1, start + 1 + h.size] := by
      rw [hroot]
      dsimp only
      split <;> rfl
    rw [hdaughters]
    exact hhead
  | move h c ih =>
    rw [nodesFrom] at hnodes
    set root : Node := ⟨.move (start + 1) (phrase c.target.leaf) c, h.head, h.index + 1⟩
    have hhead : Walk nodes ((start + 1) :: stack) _ :=
      ih (l := l ++ [root]) (r := r) (by simp [hnodes]) (by simp [hlen]) hw
    rw [size, List.range'_succ]
    exact .visit (n := root) (by simp [hnodes, ← hlen]) hhead

theorem walk_nodes (t : Tree) : Walk t.nodes [0] (List.range t.nodes.length) := by
  have hnodes : t.nodes = [] ++ t.nodesFrom t.phraseOf 0 ++ [] := (List.append_nil _).symm
  have hw := walk_nodesFrom hnodes rfl Walk.done
  rwa [List.append_nil, ← List.range_eq_range', ← length_phrases, ← length_nodes] at hw

/-- The tree of the nodes of a tree is that tree. -/
theorem ofNodes_nodes {fuel : Nat} (hu : t.phrases[i]? = some u) (hfuel : u.size ≤ fuel) : ofNodes t.nodes fuel i = some u := by
  induction fuel generalizing i u with
  | zero => exact absurd u.size_pos (Nat.not_lt.2 hfuel)
  | succ fuel ih =>
    have hn : t.nodes[i]? = some ⟨u.operationAt t.phraseOf i, u.head, u.index⟩ := by rw [getElem?_nodes, hu]; rfl
    rw [ofNodes, hn, Option.bind_eq_bind, Option.bind_some]
    cases u with
    | lexical leaf => rfl
    | merge b h a c =>
      rw [size] at hfuel
      have hh := ih (getElem?_phrases_head hu) (by omega)
      have ha := ih (getElem?_phrases_argument hu) (by omega)
      cases b <;> simp [operationAt, hh, ha]
    | move h c =>
      rw [size] at hfuel
      simp [operationAt, ih (getElem?_phrases_host hu) (by omega)]

theorem filterMap_check_nodes (t : Tree) : t.nodes.filterMap (·.operation.check?) = t.checks := by
  have hfrom : ∀ (phrase : LeafId → NodeId) (start : NodeId) (t : Tree),
      (t.nodesFrom phrase start).filterMap (·.operation.check?) = t.checks := by
    intro phrase start t
    induction t generalizing start with
    | lexical leaf => rfl
    | merge b h a c ihh iha =>
      rw [nodesFrom, List.filterMap_cons, List.filterMap_append, ihh, iha]
      cases b <;> rfl
    | move h c ih =>
      rw [nodesFrom, List.filterMap_cons, ih]
      rfl
  exact hfrom _ _ t

section Relabel

theorem phrases_relabel (f : LeafId → LeafId) (t : Tree) : (t.relabel f).phrases = t.phrases.map (·.relabel f) := by
  induction t with
  | lexical leaf => rfl
  | merge b h a c ihh iha => rw [relabel, phrases, phrases, ihh, iha, List.map_cons, List.map_append, relabel]
  | move h c ih => rw [relabel, phrases, phrases, ih, List.map_cons, relabel]

theorem size_relabel (f : LeafId → LeafId) (t : Tree) : (t.relabel f).size = t.size := by
  rw [← length_phrases, ← length_phrases, phrases_relabel, List.length_map]

theorem checks_relabel (f : LeafId → LeafId) (t : Tree) : (t.relabel f).checks = t.checks.map (relabel.rename f) := by
  induction t with
  | lexical leaf => rfl
  | merge b h a c ihh iha => rw [relabel, checks, checks, ihh, iha, List.map_cons, List.map_append]
  | move h c ih => rw [relabel, checks, checks, ih, List.map_cons]

theorem phraseOf_relabel (hf : Function.Injective f) (t : Tree) (leaf : LeafId) :
    (t.relabel f).phraseOf (f leaf) = t.phraseOf leaf := by
  rw [phraseOf, phraseOf, phrases_relabel, List.findIdx_map]
  congr 1
  funext u
  simp [head_relabel, hf.eq_iff]

theorem nodes_relabel (hf : Function.Injective f) (t : Tree) : (t.relabel f).nodes = t.nodes.map (·.rename f) := by
  refine List.ext_getElem? fun i => ?_
  rw [getElem?_nodes, List.getElem?_map, getElem?_nodes, phrases_relabel, List.getElem?_map, Option.map_map,
    Option.map_map]
  congr 1
  funext u
  cases u with
  | lexical leaf => rfl
  | merge b h a c =>
    simp only [Function.comp_apply, relabel, operationAt, size_relabel]
    cases b <;> simp [Node.rename, Operation.rename, head, head_relabel, index, index_relabel, relabel.rename]
  | move h c =>
    simp [Node.rename, Operation.rename, head, head_relabel, index, index_relabel, relabel, operationAt, relabel.rename,
      phraseOf_relabel hf]

end Relabel

end Tree

namespace Derivation

variable {d d' : Derivation} (leaves : List Leaf)

/-- A tree over leaves, with its phrases as nodes. -/
def ofTree (t : Tree) : Derivation := ⟨leaves, t.nodes⟩

/-- The nodes are the phrases of the tree, in order. -/
def IsPreorder (d : Derivation) : Prop := d.nodes = d.tree.nodes

theorem tree_ofTree (t : Tree) : (ofTree leaves t).tree = t := by
  have hfuel : t.size ≤ t.nodes.length := Nat.le_of_eq (t.length_nodes.trans t.length_phrases).symm
  rw [tree, ofTree, Tree.ofNodes_nodes t.getElem?_phrases_zero hfuel, Option.getD_some]

theorem isPreorder_ofTree (t : Tree) : (ofTree leaves t).IsPreorder := by
  rw [IsPreorder, tree_ofTree]
  rfl

namespace IsPreorder

theorem getElem?_zero (h : d.IsPreorder) : d.nodes[0]? = some ⟨d.tree.operationAt d.tree.phraseOf 0, d.tree.head, d.tree.index⟩ := by
  rw [h, Tree.getElem?_nodes, Tree.getElem?_phrases_zero]
  rfl

theorem nodes_ne_nil (h : d.IsPreorder) : d.nodes ≠ [] := fun hn => by simpa [hn] using h.getElem?_zero

theorem nodes_eq (h : d.IsPreorder) (h' : d'.IsPreorder) (ht : d.tree = d'.tree) : d.nodes = d'.nodes :=
  h.trans ((congrArg Tree.nodes ht).trans h'.symm)

end IsPreorder

end Derivation

end MinimalistGrammar
