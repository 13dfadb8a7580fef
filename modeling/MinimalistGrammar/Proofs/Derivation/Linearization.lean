import MinimalistGrammar.Proofs.Derivation.Placement
import MinimalistGrammar.Proofs.Derivation.Node
import MinimalistGrammar.Proofs.Grouping

/-!
The walk through the nodes spells out what the tree does. A phrase that moves waits inside the head it was merged into,
so its node comes after that of its last landing, and with it every node that the walk goes on to.
-/

namespace MinimalistGrammar

variable {m i j k id index : Nat} {host leaf : LeafId} {f : LeafId → LeafId} {t u h a : Tree} {b : Bool} {c : Check}
  {r : FeatureRef} {fuel : Nat}

namespace Tree

/-- The licensee by which a phrase moves to the edge of this one. -/
def landing? : Tree → Option FeatureRef
  | move _ c => some c.target
  | _ => none

theorem landings_eq (t : Tree) : t.landings = t.phrases.filterMap landing? := by
  induction t with
  | lexical leaf => rfl
  | merge b h a c ihh iha =>
    rw [landings, phrases, ihh, iha, List.filterMap_cons, List.filterMap_append]
    rfl
  | move h c ih =>
    rw [landings, phrases, ih, List.filterMap_cons]
    rfl

theorem landing?_eq_some : u.landing? = some r ↔ ∃ h c, u = move h c ∧ c.target = r := by
  cases u <;> simp [landing?]

theorem mem_landings_iff : r ∈ t.landings ↔ ∃ h c, move h c ∈ t.phrases ∧ c.target = r := by
  simp only [landings_eq, List.mem_filterMap, landing?_eq_some]
  grind

theorem eq_of_target_eq {h' : Tree} {c' : Check} (hn : t.landings.Nodup) (hu : t.phrases[i]? = some (move h c))
    (hu' : t.phrases[j]? = some (move h' c')) (he : c.target = c'.target) : i = j := by
  rw [landings_eq, List.Nodup, List.pairwise_filterMap, List.pairwise_iff_getElem] at hn
  obtain ⟨hi, hu⟩ := List.getElem?_eq_some_iff.1 hu
  obtain ⟨hj, hu'⟩ := List.getElem?_eq_some_iff.1 hu'
  rcases Nat.lt_trichotomy i j with hlt | heq | hlt
  · exact absurd he (hn i j hi hj hlt _ (hu ▸ rfl) _ (hu' ▸ rfl))
  · exact heq
  · exact absurd he.symm (hn j i hj hi hlt _ (hu' ▸ rfl) _ (hu ▸ rfl))

theorem mem_hosts_iff : (host, leaf) ∈ t.hosts ↔
    ∃ h a c, merge true h a c ∈ t.phrases ∧ c.trigger.leaf = host ∧ c.target.leaf = leaf := by
  induction t with
  | lexical leaf => simp [hosts, phrases]
  | merge b h a c ihh iha =>
    cases b <;> simp [hosts, phrases, ihh, iha, or_and_right, exists_or, and_assoc, eq_comm]
  | move h c ih =>
    simp only [hosts, phrases, List.mem_cons, reduceCtorEq, false_or, ih]

theorem operation?_nodes (t : Tree) (i : NodeId) :
    operation? t.nodes i = t.phrases[i]?.map (·.operationAt t.phraseOf i) := by
  rw [operation?, getElem?_nodes, Option.map_map]
  rfl

theorem exists_node (hu : t.phrases[i]? = some u) : ∃ n, t.nodes[i]? = some n ∧ n.operation.isLexical = u.isLexical := by
  refine ⟨⟨u.operationAt t.phraseOf i, u.head, u.index⟩, by rw [getElem?_nodes, hu]; rfl, ?_⟩
  cases u with
  | lexical _ | move _ _ => rfl
  | merge b _ _ _ => cases b <;> rfl

theorem lands_nodes_iff : Lands t.nodes m index id ↔
    ∃ h c, t.phrases[id]? = some (move h c) ∧ t.phraseOf c.target.leaf = m ∧ c.target.index = index := by
  simp only [Lands, operation?_nodes, Option.map_eq_some_iff]
  constructor
  · rintro ⟨head, c, ⟨u, hu, hop⟩, hi⟩
    cases u with
    | lexical leaf => cases hop
    | merge b h a c' => cases b <;> cases hop
    | move h c' =>
      cases hop
      exact ⟨h, c, hu, rfl, hi⟩
  · rintro ⟨h, c, hu, rfl, hi⟩
    exact ⟨id + 1, c, ⟨_, hu, rfl⟩, hi⟩

theorem incorporates_nodes_iff : Incorporates t.nodes host leaf ↔ (host, leaf) ∈ t.hosts := by
  simp only [Incorporates, operation?_nodes, Option.map_eq_some_iff, mem_hosts_iff]
  constructor
  · rintro ⟨id, head, argument, c, ⟨u, hu, hop⟩, hi⟩
    cases u with
    | lexical leaf => cases hop
    | merge b h a c' =>
      cases b with
      | false => cases hop
      | true =>
        cases hop
        exact ⟨h, a, c, List.mem_of_getElem? hu, hi, rfl⟩
    | move h c' => cases hop
  · rintro ⟨h, a, c, hu, hi, rfl⟩
    obtain ⟨id, hid⟩ := List.getElem?_of_mem hu
    exact ⟨id, _, _, c, ⟨_, hid, rfl⟩, hi⟩

theorem mem_phrases_self (t : Tree) : t ∈ t.phrases := List.mem_of_getElem? t.getElem?_phrases_zero

theorem mem_leaves_iff : leaf ∈ t.leaves ↔ ∃ u ∈ t.phrases, u.head = leaf := by
  induction t with
  | lexical l => simp [leaves, phrases, head, eq_comm]
  | merge b h a c ihh iha =>
    have hroot : (merge b h a c).head = leaf → ∃ u ∈ h.phrases, u.head = leaf := fun he => ⟨h, h.mem_phrases_self, he⟩
    simp only [leaves, phrases, List.mem_append, List.mem_cons, ihh, iha]
    grind
  | move h c ih =>
    have hroot : (move h c).head = leaf → ∃ u ∈ h.phrases, u.head = leaf := fun he => ⟨h, h.mem_phrases_self, he⟩
    simp only [leaves, phrases, List.mem_cons, ih]
    grind

theorem phraseOf_lt_iff : t.phraseOf leaf < t.size ↔ leaf ∈ t.leaves := by
  rw [← length_phrases, phraseOf, List.findIdx_lt_length, mem_leaves_iff]
  simp

theorem phraseOf_head (t : Tree) : t.phraseOf t.head = 0 := by
  cases t <;> simp [phraseOf, phrases, List.findIdx_cons]

theorem phraseOf_merge : (merge b h a c).phraseOf leaf = if h.head = leaf then 0
    else if leaf ∈ h.leaves then h.phraseOf leaf + 1 else a.phraseOf leaf + h.size + 1 := by
  rw [phraseOf, phrases, List.findIdx_cons, List.findIdx_append, length_phrases]
  change (bif decide (h.head = leaf) then 0
    else (if h.phraseOf leaf < h.size then h.phraseOf leaf else a.phraseOf leaf + h.size) + 1) = _
  simp only [Bool.cond_decide, phraseOf_lt_iff]
  split
  · rfl
  · split <;> rfl

theorem phraseOf_move : (move h c).phraseOf leaf = if h.head = leaf then 0 else h.phraseOf leaf + 1 := by
  rw [phraseOf, phrases, List.findIdx_cons]
  exact Bool.cond_decide _ _ _

theorem phraseOf_argument (hn : t.leaves.Nodup) (hu : t.phrases[i]? = some (merge b h a c)) :
    t.phraseOf a.head = i + 1 + h.size := by
  have hmem : ∀ {i} {u : Tree}, u.phrases[i]? = some (merge b h a c) → a.head ∈ u.leaves := fun hu =>
    mem_leaves_iff.2 ⟨a, List.mem_of_getElem? (getElem?_phrases_argument hu), rfl⟩
  have hne : ∀ {i : Nat} {u : Tree}, u.phraseOf a.head = i + 1 + h.size → u.head ≠ a.head := by
    intro i u hphrase he
    rw [← he, phraseOf_head] at hphrase
    exact Nat.ne_of_lt (Nat.add_pos_left (Nat.succ_pos i) _) hphrase
  -- by the tree in which the merge is found: its leaves are in one part only, and the search passes the other by
  induction t generalizing i with
  | lexical leaf => cases i <;> cases hu
  | merge b' h' a' c' ihh iha =>
    obtain ⟨hnh, hna, hdisj⟩ := List.nodup_append.1 hn
    have hnot : ∀ {l}, l ∈ a'.leaves → h'.head ≠ l ∧ l ∉ h'.leaves := fun hl =>
      ⟨hdisj _ h'.head_mem_leaves _ hl, fun hl' => hdisj _ hl' _ hl rfl⟩
    cases i with
    | zero =>
      obtain ⟨-, rfl, rfl, -⟩ := merge.inj (Option.some.inj hu)
      obtain ⟨hroot, hhead⟩ := hnot a'.head_mem_leaves
      rw [phraseOf_merge, if_neg hroot, if_neg hhead, phraseOf_head]
      exact Nat.add_right_comm 0 h'.size 1
    | succ i =>
      rw [phrases, List.getElem?_cons_succ] at hu
      rcases Nat.lt_or_ge i h'.phrases.length with hi | hi
      · rw [List.getElem?_append_left hi] at hu
        have hfirst := ihh hnh hu
        rw [phraseOf_merge, if_neg (hne hfirst), if_pos (hmem hu), hfirst]
        exact Nat.add_right_comm (i + 1) h.size 1
      · rw [List.getElem?_append_right hi] at hu
        obtain ⟨hroot, hhead⟩ := hnot (hmem hu)
        rw [phraseOf_merge, if_neg hroot, if_neg hhead, iha hna hu, ← h'.length_phrases]
        change @Eq Nat _ _
        omega
  | move h' c' ih =>
    cases i with
    | zero => cases hu
    | succ i =>
      have hfirst := ih hn hu
      rw [phraseOf_move, if_neg (hne hfirst), hfirst]
      exact Nat.add_right_comm (i + 1) h.size 1

theorem head_eq_of_phraseOf (hu : t.phrases[t.phraseOf leaf]? = some u) : u.head = leaf := by
  obtain ⟨hlt, rfl⟩ := List.getElem?_eq_some_iff.1 hu
  exact of_decide_eq_true (List.findIdx_getElem (w := hlt))

/-- What waits inside a phrase is spelled as the phrase of its leaf, which comes later. -/
theorem exists_of_mem_waiting {hosts : List (LeafId × LeafId)} {landings : List FeatureRef} {w : List LeafId}
    (hn : t.leaves.Nodup) (hu : t.phrases[i]? = some u) (hw : (leaf, w) ∈ (u.spell hosts landings).waiting) :
    ∃ (j : Nat) (a : Tree), i < j ∧ t.phrases[j]? = some a ∧ t.phraseOf leaf = j ∧ (a.spell hosts landings).order = w := by
  induction u generalizing i with
  | lexical l =>
    rw [spell, Spellout.ofLeaf] at hw
    split at hw <;> cases hw
  | merge b h a c ihh iha =>
    have ha := getElem?_phrases_argument hu
    have hinside : (leaf, w) = (a.head, (a.spell hosts landings).order) ∨ (leaf, w) ∈ (h.spell hosts landings).waiting ∨
        (leaf, w) ∈ (a.spell hosts landings).waiting := by
      rw [spell] at hw
      grind
    rcases hinside with he | hw | hw
    · obtain ⟨rfl, rfl⟩ := Prod.mk.inj he
      exact ⟨_, a, by omega, ha, phraseOf_argument hn hu, rfl⟩
    · obtain ⟨j, a, hlt, h⟩ := ihh (getElem?_phrases_head hu) hw
      exact ⟨j, a, Nat.lt_of_succ_lt hlt, h⟩
    · obtain ⟨j, a, hlt, h⟩ := iha ha hw
      exact ⟨j, a, by omega, h⟩
  | move h c ih =>
    have hinside : (leaf, w) ∈ (h.spell hosts landings).waiting := by
      rw [spell] at hw
      dsimp only at hw
      split at hw
      · exact (List.mem_filter.1 hw).1
      · exact hw
    obtain ⟨j, a, hlt, h⟩ := ih (getElem?_phrases_host hu) hinside
    exact ⟨j, a, Nat.lt_of_succ_lt hlt, h⟩

/-- Each leaf comes once, a host takes up one leaf, a licensee is used up by one movement, and what comes to its last
landing waits inside the head. -/
structure IsPronounceable (t : Tree) : Prop where
  nodup_leaves : t.leaves.Nodup
  host_unique : ∀ host leaf leaf', (host, leaf) ∈ t.hosts → (host, leaf') ∈ t.hosts → leaf = leaf'
  nodup_landings : t.landings.Nodup
  waits : ∀ h c, move h c ∈ t.phrases → isLastLanding t.landings c.target = true →
    c.target.leaf ∈ (h.spell t.hosts t.landings).waiting.map (·.1)

def placement (t : Tree) : Placement := .ofNodes t.nodes

theorem exists_of_lookup_placement {last : Nat × NodeId} (hlast : t.placement.landings.lookup m = some last) :
    ∃ h c, t.phrases[last.2]? = some (move h c) ∧ t.phraseOf c.target.leaf = m ∧ c.target.index = last.1 :=
  lands_nodes_iff.1 ((Placement.records_ofNodes t.nodes).lands m last.1 last.2 hlast)

theorem exists_lookup_placement (hr : r ∈ t.landings) :
    ∃ last, t.placement.landings.lookup (t.phraseOf r.leaf) = some last ∧ r.index ≤ last.1 := by
  obtain ⟨h, c, hu, rfl⟩ := mem_landings_iff.1 hr
  obtain ⟨i, hi⟩ := List.getElem?_of_mem hu
  exact (Placement.records_ofNodes t.nodes).le_last _ _ i (lands_nodes_iff.2 ⟨h, c, hi, rfl, rfl⟩)

theorem order_spell_merge (hosts : List (LeafId × LeafId)) (landings : List FeatureRef) :
    (spell hosts landings (merge b h a c)).order =
      if landings.any (·.leaf = a.head) then (h.spell hosts landings).order
      else if h.isLexical then (h.spell hosts landings).order ++ (a.spell hosts landings).order
      else (a.spell hosts landings).order ++ (h.spell hosts landings).order := by
  rw [spell]
  split
  · rfl
  · split <;> rfl

section Placement

variable (hs : t.IsPronounceable)
include hs

theorem pronounce_placement (leaf : LeafId) : t.placement.pronounce leaf = (Spellout.ofLeaf t.hosts leaf).order := by
  have hrec := Placement.records_ofNodes t.nodes
  have htaken : leaf ∈ t.placement.incorporated ↔ t.hosts.any (·.2 = leaf) = true := by
    rw [placement, hrec.incorporated]
    simp [incorporates_nodes_iff]
  have hlookup : t.placement.hosts.lookup leaf = t.hosts.lookup leaf :=
    lookup_congr (fun host leaf => (hrec.hosts host leaf).trans incorporates_nodes_iff) hs.host_unique leaf
  rw [Placement.pronounce, Spellout.ofLeaf, hlookup]
  by_cases h : leaf ∈ t.placement.incorporated
  · rw [if_pos h, if_pos (htaken.1 h)]
  · rw [if_neg h, if_neg (mt htaken.2 h)]

theorem isSome_lookup_placement (hu : t.phrases[i]? = some (merge b h a c)) :
    (t.placement.landings.lookup (i + 1 + h.size)).isSome = t.landings.any (·.leaf = a.head) := by
  rw [Bool.eq_iff_iff, List.any_eq_true, Option.isSome_iff_exists]
  constructor
  · rintro ⟨last, hlast⟩
    obtain ⟨h', c', hu', hphrase, _⟩ := exists_of_lookup_placement hlast
    refine ⟨c'.target, mem_landings_iff.2 ⟨h', c', List.mem_of_getElem? hu', rfl⟩, decide_eq_true ?_⟩
    exact (head_eq_of_phraseOf (hphrase ▸ getElem?_phrases_argument hu)).symm
  · rintro ⟨r, hr, he⟩
    obtain ⟨last, hlast, _⟩ := exists_lookup_placement hr
    rw [of_decide_eq_true he, phraseOf_argument hs.nodup_leaves hu] at hlast
    exact ⟨last, hlast⟩

theorem exists_phrase_of_isLast (hu : t.phrases[i]? = some (move h c)) (hl : isLastLanding t.landings c.target = true) :
    ∃ (j : Nat) (a : Tree), i < j ∧ t.phrases[j]? = some a ∧ t.phraseOf c.target.leaf = j ∧
      ((h.spell t.hosts t.landings).take c.target.leaf).1 = (a.spell t.hosts t.landings).order := by
  obtain ⟨w, hw⟩ := exists_lookup (hs.waits h c (List.mem_of_getElem? hu) hl)
  obtain ⟨j, a, hlt, ha, hphrase, rfl⟩ :=
    exists_of_mem_waiting hs.nodup_leaves (getElem?_phrases_host hu) (mem_of_lookup hw)
  exact ⟨j, a, Nat.lt_of_succ_lt hlt, ha, hphrase, by rw [Spellout.take, hw, Option.getD_some]⟩

theorem any_lookup_placement (hu : t.phrases[i]? = some (move h c)) :
    (t.placement.landings.lookup (t.phraseOf c.target.leaf)).any (·.2 = i) = isLastLanding t.landings c.target := by
  obtain ⟨last, hlast, hle⟩ := exists_lookup_placement (mem_landings_iff.2 ⟨h, c, List.mem_of_getElem? hu, rfl⟩)
  obtain ⟨h', c', hu', hphrase, hindex⟩ := exists_of_lookup_placement hlast
  rw [hlast, Option.any_some, Bool.eq_iff_iff, decide_eq_true_iff]
  constructor
  · rintro rfl
    obtain ⟨_, rfl⟩ := move.inj (Option.some.inj (hu.symm.trans hu'))
    refine List.all_eq_true.2 fun r hr => ?_
    rw [Bool.or_eq_true, decide_eq_true_iff, decide_eq_true_iff, or_iff_not_imp_left, not_not]
    intro he
    obtain ⟨_, hlast', hle'⟩ := exists_lookup_placement hr
    rw [he, hlast, Option.some.injEq] at hlast'
    exact hindex ▸ hlast' ▸ hle'
  · intro hl
    obtain ⟨j, a, _, ha, hj, _⟩ := exists_phrase_of_isLast hs hu hl
    have hleaf : c'.target.leaf = c.target.leaf :=
      (head_eq_of_phraseOf (hphrase ▸ hj ▸ ha)).symm.trans (head_eq_of_phraseOf (hj ▸ ha))
    have hge := List.all_eq_true.1 hl _ (mem_landings_iff.2 ⟨h', c', List.mem_of_getElem? hu', rfl⟩)
    rw [Bool.or_eq_true, decide_eq_true_iff, decide_eq_true_iff, or_iff_right (not_not.2 hleaf)] at hge
    exact eq_of_target_eq hs.nodup_landings hu' hu
      (congrArg₂ FeatureRef.mk hleaf (Nat.le_antisymm hge (hindex ▸ hle)))

/-- The walk comes to the end, deeper by at most the nodes that come later, and spells out the phrase of the node. -/
theorem linearize_eq (hu : t.phrases[i]? = some u) (hfuel : t.size ≤ i + fuel) :
    t.placement.linearize t.nodes fuel i = some (u.spell t.hosts t.landings).order := by
  -- by the fuel: the nodes of the head, the argument and what lands here all have greater numbers
  induction fuel generalizing i u with
  | zero =>
    have := (List.getElem?_eq_some_iff.1 hu).1
    rw [length_phrases] at this
    omega
  | succ fuel ih =>
    have hn : t.nodes[i]? = some ⟨u.operationAt t.phraseOf i, u.head, u.index⟩ := by rw [getElem?_nodes, hu]; rfl
    cases u with
    | lexical leaf =>
      rw [Placement.linearize, hn]
      exact congrArg some (pronounce_placement hs leaf)
    | merge b h a c =>
      have hh := getElem?_phrases_head hu
      obtain ⟨n, hnh, hlex⟩ := exists_node hh
      have hfirst := ih hh (by omega)
      have hsecond := ih (getElem?_phrases_argument hu) (by omega)
      have hmoves := isSome_lookup_placement hs hu
      rw [Placement.linearize, hn, order_spell_merge]
      cases b <;>
        simp only [operationAt, Bool.false_eq_true, if_true, if_false, Option.bind_eq_bind, Option.bind_some, hnh, hfirst,
          hmoves, hlex]
      all_goals
        split
        · simp
        · rw [hsecond]
          rfl
    | move h c =>
      have hh := getElem?_phrases_host hu
      have hsecond := ih hh (by omega)
      have hlands := any_lookup_placement hs hu
      rw [Placement.linearize, hn, spell]
      simp only [operationAt, Option.bind_eq_bind, Option.bind_some, hlands, hsecond]
      split
      · rename_i hl
        obtain ⟨j, a, hlt, ha, rfl, htake⟩ := exists_phrase_of_isLast hs hu hl
        rw [ih ha (by omega), htake]
        rfl
      · rfl

end Placement

theorem IsPronounceable.relabel (hs : t.IsPronounceable) (hf : Function.Injective f) : (t.relabel f).IsPronounceable where
  nodup_leaves := by
    rw [leaves_relabel]
    exact hs.nodup_leaves.map hf
  host_unique := by
    rw [hosts_relabel]
    intro host leaf leaf' hl hl'
    obtain ⟨⟨x, y⟩, hxy, he⟩ := List.mem_map.1 hl
    obtain ⟨⟨x', y'⟩, hxy', he'⟩ := List.mem_map.1 hl'
    obtain ⟨rfl, rfl⟩ := Prod.mk.inj he
    obtain ⟨hx, rfl⟩ := Prod.mk.inj he'
    obtain rfl := hf hx
    rw [hs.host_unique x' y y' hxy hxy']
  nodup_landings := by
    rw [landings_relabel]
    exact hs.nodup_landings.map (FeatureRef.rename_injective hf)
  waits := by
    rw [phrases_relabel, hosts_relabel, landings_relabel]
    intro h c hmem hl
    obtain ⟨u, hu, he⟩ := List.mem_map.1 hmem
    cases u with
    | lexical leaf => cases he
    | merge b h a c => cases he
    | move h c =>
      obtain ⟨rfl, rfl⟩ := move.inj he
      rw [show (relabel.rename f c).target = c.target.rename f from rfl, isLastLanding_rename hf] at hl
      obtain ⟨x, hx, he⟩ := List.mem_map.1 (hs.waits h c hu hl)
      rw [spell_relabel hf, Spellout.rename, List.map_map]
      exact List.mem_map.2 ⟨x, hx, congrArg f he⟩

end Tree

/-- The walk from the root comes to an end, and to the leaves in the order in which the tree is spelled out. -/
theorem Derivation.linearize_eq {d : Derivation} (hp : d.IsPreorder) (hs : d.tree.IsPronounceable)
    (hfuel : d.nodes.length ≤ fuel) : d.linearize fuel = some d.tree.spellout := by
  rw [hp, Tree.length_nodes, Tree.length_phrases] at hfuel
  rw [linearize, hp]
  exact Tree.linearize_eq hs d.tree.getElem?_phrases_zero (by rwa [Nat.zero_add])

theorem Derivation.order_eq {d : Derivation} (hp : d.IsPreorder) (hs : d.tree.IsPronounceable) :
    d.order = d.tree.spellout := by
  rw [order, linearize_eq hp hs (Nat.le_refl _), Option.getD_some]

end MinimalistGrammar
