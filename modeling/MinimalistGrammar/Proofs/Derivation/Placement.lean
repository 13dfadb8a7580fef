import MinimalistGrammar.Derivation.Placement
import Mathlib.Data.List.Induction

/-!
What a placement says of the nodes it was made from: of each phrase that moves its last landing, and of each host what
it takes up.
-/

namespace MinimalistGrammar

variable {nodes nodes' : List Node} {n : Node} {op : Operation} {placement placement' : Placement} {m m' id index : Nat}

def operation? (nodes : List Node) (id : NodeId) : Option Operation := nodes[id]?.map (·.operation)

/-- By its licensee with that index a phrase moves to the node. -/
def Lands (nodes : List Node) (mover : NodeId) (index : Nat) (id : NodeId) : Prop :=
  ∃ head c, operation? nodes id = some (.move head mover c) ∧ c.target.index = index

/-- At some node the host takes up the leaf. -/
def Incorporates (nodes : List Node) (host leaf : LeafId) : Prop :=
  ∃ id head argument c, operation? nodes id = some (.headMove head argument c leaf) ∧ c.trigger.leaf = host

theorem operation?_concat_iff : operation? (nodes ++ [n]) id = some op ↔
    operation? nodes id = some op ∨ (id = nodes.length ∧ n.operation = op) := by
  rw [operation?, operation?]
  rcases Nat.lt_trichotomy id nodes.length with hlt | rfl | hlt
  · rw [List.getElem?_append_left hlt]
    exact ⟨.inl, fun h => h.resolve_right fun h => Nat.ne_of_lt hlt h.1⟩
  · rw [List.getElem?_concat_length, List.getElem?_eq_none (Nat.le_refl _)]
    simp
  · rw [List.getElem?_append_right (Nat.le_of_lt hlt), List.getElem?_eq_none (Nat.le_of_lt hlt),
      List.getElem?_eq_none (Nat.sub_pos_of_lt hlt)]
    simp [Nat.ne_of_gt hlt]

namespace Placement

structure RecordsLandings (placement : Placement) (nodes : List Node) : Prop where
  lands : ∀ m index id, placement.landings.lookup m = some (index, id) → Lands nodes m index id
  le_last : ∀ m index id, Lands nodes m index id → ∃ last, placement.landings.lookup m = some last ∧ index ≤ last.1

structure RecordsHosts (placement : Placement) (nodes : List Node) : Prop where
  hosts : ∀ host leaf, (host, leaf) ∈ placement.hosts ↔ Incorporates nodes host leaf
  incorporated : ∀ leaf, leaf ∈ placement.incorporated ↔ ∃ host, Incorporates nodes host leaf

/-- What is entered are the movements of the nodes, of the landings of a phrase the last. -/
structure Records (placement : Placement) (nodes : List Node) : Prop extends
  RecordsLandings placement nodes, RecordsHosts placement nodes

theorem lookup_land_of_ne (hne : m' ≠ m) :
    (placement.land m index id).landings.lookup m' = placement.landings.lookup m' := by
  rw [land]
  split
  · rw [List.lookup_cons, beq_eq_false_iff_ne.2 hne]
  · rfl

theorem exists_lookup_land (placement : Placement) (m : NodeId) (index : Nat) (id : NodeId) : ∃ last,
    (placement.land m index id).landings.lookup m = some last ∧
      (last = (index, id) ∨ placement.landings.lookup m = some last) ∧
        index ≤ last.1 ∧ ∀ earlier, placement.landings.lookup m = some earlier → earlier.1 ≤ last.1 := by
  rw [land]
  cases hold : placement.landings.lookup m with
  | none => exact ⟨(index, id), List.lookup_cons_self, .inl rfl, Nat.le_refl _, fun _ h => by cases h⟩
  | some earlier =>
    rw [Option.all_some]
    split
    · rename_i hlt
      refine ⟨(index, id), List.lookup_cons_self, .inl rfl, Nat.le_refl _, fun _ h => ?_⟩
      cases h
      exact Nat.le_of_lt (of_decide_eq_true hlt)
    · rename_i hle
      refine ⟨earlier, hold, .inr rfl, by simpa using hle, fun _ h => ?_⟩
      cases h
      exact Nat.le_refl _

theorem lands_concat_iff (nodes : List Node) (n : Node) (m index id : Nat) : Lands (nodes ++ [n]) m index id ↔
    Lands nodes m index id ∨ (id = nodes.length ∧ ∃ head c, n.operation = .move head m c ∧ c.target.index = index) := by
  simp only [Lands, operation?_concat_iff]
  grind

theorem incorporates_concat_iff (nodes : List Node) (n : Node) (host leaf : LeafId) :
    Incorporates (nodes ++ [n]) host leaf ↔ Incorporates nodes host leaf ∨
      ∃ head argument c, n.operation = .headMove head argument c leaf ∧ c.trigger.leaf = host := by
  simp only [Incorporates, operation?_concat_iff]
  grind

theorem RecordsLandings.congr (h : placement.RecordsLandings nodes) (hkeep : placement'.landings = placement.landings)
    (hiff : ∀ m index id, Lands nodes' m index id ↔ Lands nodes m index id) : placement'.RecordsLandings nodes' where
  lands := fun m index id hm => (hiff m index id).2 (h.lands m index id (hkeep ▸ hm))
  le_last := fun m index id hm => hkeep ▸ h.le_last m index id ((hiff m index id).1 hm)

theorem RecordsHosts.congr (h : placement.RecordsHosts nodes) (hhosts : placement'.hosts = placement.hosts)
    (hincorporated : placement'.incorporated = placement.incorporated)
    (hiff : ∀ host leaf, Incorporates nodes' host leaf ↔ Incorporates nodes host leaf) : placement'.RecordsHosts nodes' where
  hosts := fun host leaf => hhosts ▸ (h.hosts host leaf).trans (hiff host leaf).symm
  incorporated := fun leaf => hincorporated ▸ (h.incorporated leaf).trans (exists_congr fun host => (hiff host leaf).symm)

theorem RecordsLandings.land {head : NodeId} {c : Check} (h : placement.RecordsLandings nodes)
    (hop : n.operation = .move head m c) :
    (placement.land m c.target.index nodes.length).RecordsLandings (nodes ++ [n]) := by
  obtain ⟨last, hlast, hentry, hle, hearlier⟩ := exists_lookup_land placement m c.target.index nodes.length
  refine ⟨fun m' index id hm => ?_, fun m' index id hm => ?_⟩
  · rw [lands_concat_iff]
    by_cases hne : m' = m
    · subst hne
      rw [hlast, Option.some.injEq] at hm
      subst hm
      rcases hentry with he | he
      · obtain ⟨rfl, rfl⟩ := Prod.mk.inj he
        exact .inr ⟨rfl, head, c, hop, rfl⟩
      · exact .inl (h.lands _ _ _ he)
    · rw [lookup_land_of_ne hne] at hm
      exact .inl (h.lands m' index id hm)
  · rcases (lands_concat_iff nodes n m' index id).1 hm with hm | ⟨rfl, _, _, hop', rfl⟩
    · obtain ⟨earlier, hearly, hle'⟩ := h.le_last m' index id hm
      by_cases hne : m' = m
      · subst hne
        exact ⟨last, hlast, Nat.le_trans hle' (hearlier _ hearly)⟩
      · exact ⟨earlier, (lookup_land_of_ne hne).trans hearly, hle'⟩
    · rw [hop] at hop'
      cases hop'
      exact ⟨last, hlast, hle⟩

theorem RecordsHosts.takeUp {head argument : NodeId} {leaf : LeafId} {c : Check} (h : placement.RecordsHosts nodes)
    (hop : n.operation = .headMove head argument c leaf) :
    (placement.takeUp c.trigger.leaf leaf).RecordsHosts (nodes ++ [n]) := by
  have hiff : ∀ host l, Incorporates (nodes ++ [n]) host l ↔
      (host = c.trigger.leaf ∧ l = leaf) ∨ Incorporates nodes host l := by
    intro host l
    rw [incorporates_concat_iff, hop]
    grind
  refine ⟨fun host l => ?_, fun l => ?_⟩
  · rw [hiff, ← h.hosts, Placement.takeUp, List.mem_cons, Prod.mk.injEq]
  · simp only [hiff, exists_or, ← h.incorporated, Placement.takeUp, List.mem_cons, exists_eq_left]

/-- Each node adds what it moves, and no other movement. -/
theorem Records.enter (h : placement.Records nodes) (n : Node) :
    (placement.enter nodes.length n.operation).Records (nodes ++ [n]) := by
  have hlands := lands_concat_iff nodes n
  have hhosts := incorporates_concat_iff nodes n
  cases hop : n.operation with
  | lexical leaf | merge head argument c =>
    simp only [hop, reduceCtorEq, false_and, exists_false, and_false, or_false] at hlands hhosts
    exact ⟨h.toRecordsLandings.congr rfl hlands, h.toRecordsHosts.congr rfl rfl hhosts⟩
  | headMove head argument c leaf =>
    simp only [hop, reduceCtorEq, false_and, exists_false, and_false, or_false] at hlands
    exact ⟨h.toRecordsLandings.congr rfl hlands, h.toRecordsHosts.takeUp hop⟩
  | move head mover c =>
    simp only [hop, reduceCtorEq, false_and, exists_false, or_false] at hhosts
    have hkeep : (placement.land mover c.target.index nodes.length).hosts = placement.hosts ∧
        (placement.land mover c.target.index nodes.length).incorporated = placement.incorporated := by
      rw [land]
      split <;> exact ⟨rfl, rfl⟩
    exact ⟨h.toRecordsLandings.land hop, h.toRecordsHosts.congr hkeep.1 hkeep.2 hhosts⟩

theorem ofNodes_concat (nodes : List Node) (n : Node) :
    ofNodes (nodes ++ [n]) = (ofNodes nodes).enter nodes.length n.operation := by
  rw [ofNodes, List.zipIdx_append, List.foldl_append, Nat.zero_add]
  rfl

theorem records_ofNodes (nodes : List Node) : (ofNodes nodes).Records nodes := by
  induction nodes using List.reverseRecOn with
  | nil => constructor <;> constructor <;> simp [ofNodes, Lands, Incorporates, operation?]
  | append_singleton nodes n ih =>
    rw [ofNodes_concat]
    exact ih.enter n

end Placement

end MinimalistGrammar
