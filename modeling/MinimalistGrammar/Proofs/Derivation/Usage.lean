import MinimalistGrammar.Derivation.Usage
import MinimalistGrammar.Proofs.Derivation.Node

/-!
The features that the checks of a tree use up. Movements and hosts are counted by them.
-/

namespace MinimalistGrammar

namespace Tree

variable {f : LeafId → LeafId}

/-- The features that the checks use up. -/
def spent (t : Tree) : List FeatureRef := t.checks.flatMap fun c => [c.trigger, c.target]

theorem spent_merge (b : Bool) (h a : Tree) (c : Check) :
    (merge b h a c).spent = c.trigger :: c.target :: (h.spent ++ a.spent) := by
  rw [spent, checks, List.flatMap_cons, List.flatMap_append]
  rfl

theorem spent_move (h : Tree) (c : Check) : (move h c).spent = c.trigger :: c.target :: h.spent := by
  rw [spent, checks, List.flatMap_cons]
  rfl

theorem spent_relabel (f : LeafId → LeafId) (t : Tree) : (t.relabel f).spent = t.spent.map (·.rename f) := by
  rw [spent, spent, checks_relabel, List.flatMap_map, List.map_flatMap]
  rfl

theorem countP_isMove_nodes (t : Tree) : t.nodes.countP (·.operation.isMove) = t.landings.length := by
  have hfrom : ∀ (phrase : LeafId → NodeId) (start : NodeId) (t : Tree),
      (t.nodesFrom phrase start).countP (·.operation.isMove) = t.landings.length := by
    intro phrase start t
    induction t generalizing start with
    | lexical leaf => rfl
    | merge b h a c ihh iha =>
      rw [nodesFrom, List.countP_cons, List.countP_append, ihh, iha, landings, List.length_append]
      cases b <;> rfl
    | move h c ih =>
      rw [nodesFrom, List.countP_cons, ih]
      rfl
  exact hfrom _ _ t

theorem countP_isHeadMove_nodes (t : Tree) : t.nodes.countP (·.operation.isHeadMove) = t.hosts.length := by
  have hfrom : ∀ (phrase : LeafId → NodeId) (start : NodeId) (t : Tree),
      (t.nodesFrom phrase start).countP (·.operation.isHeadMove) = t.hosts.length := by
    intro phrase start t
    induction t generalizing start with
    | lexical leaf => rfl
    | merge b h a c ihh iha =>
      rw [nodesFrom, List.countP_cons, List.countP_append, ihh, iha, hosts, List.append_assoc, List.length_append,
        List.length_append, Nat.add_comm]
      cases b <;> rfl
    | move h c ih =>
      rw [nodesFrom, List.countP_cons, ih]
      rfl
  exact hfrom _ _ t

theorem landings_sublist_spent (t : Tree) : t.landings.Sublist t.spent := by
  induction t with
  | lexical leaf => exact .slnil
  | merge b h a c ihh iha =>
    rw [spent_merge]
    exact ((ihh.append iha).cons _).cons _
  | move h c ih =>
    rw [spent_move]
    exact (ih.cons_cons _).cons _

end Tree

end MinimalistGrammar
