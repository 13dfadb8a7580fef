import MinimalistGrammar.Proofs.Selection.Spellout

/-!
The order of the words of a derivation. A word stands at its own slot or at the one that takes up its head, and
the words come as the sentence has them exactly if some order of the slots keeps to the checks and to the words.
-/

open Relation

namespace MinimalistGrammar

theorem rel_of_pairwise {α : Type} [DecidableEq α] {R : α → α → Prop} {l : List α} {x y : α} (h : l.Pairwise R)
    (hx : x ∈ l) (hy : y ∈ l) (hlt : l.idxOf x < l.idxOf y) : R x y := by
  have := List.pairwise_iff_getElem.1 h _ _ (List.idxOf_lt_length_of_mem hx) (List.idxOf_lt_length_of_mem hy) hlt
  rwa [List.getElem_idxOf, List.getElem_idxOf] at this

namespace Selection

variable {sel : Selection} {t : Tree} {a b i j site : SlotId} {p : PointId} {f : Feature}
  {D : SlotId → SlotId → Prop} {O : List SlotId}

/-- Where the slot's head is pronounced. -/
def StandsAt (sel : Selection) (site slot : SlotId) : Prop :=
  (site = slot ∧ (∃ item, sel.item? slot = some item) ∧ ∀ host, ¬sel.TakesUp host slot) ∨ sel.TakesUp site slot

/-- The first slot comes before the second, for an order given by what it says of earlier and later slots. -/
def Before (D : SlotId → SlotId → Prop) (a b : SlotId) : Prop := if a < b then D a b else ¬D b a

/-- An order of the slots that the checks and the words agree with. -/
structure IsOrdered (sel : Selection) (D : SlotId → SlotId → Prop) : Prop where
  before_of_precedes : ∀ a b, a < sel.schema.slotCount → b < sel.schema.slotCount → sel.Precedes a b → Before D a b
  before_of_lt : ∀ i j a b, i < j → j < sel.schema.words.length → sel.StandsAt a i → sel.StandsAt b j → a ≠ b →
    Before D a b
  eq_of_lt : ∀ i j a, i < j → j < sel.schema.words.length → sel.StandsAt a i → sel.StandsAt a j → a = j

/-- The words are pronounced in the order of the sentence. -/
def IsInOrder (sel : Selection) : Prop :=
  ∃ t, sel.tree = some t ∧ t.spellout.filter (· < sel.schema.words.length) = List.range sel.schema.words.length

theorem before_iff_not (h : a ≠ b) : Before D a b ↔ ¬Before D b a := by
  rcases Nat.lt_or_gt_of_ne h with hlt | hlt
  · rw [Before, Before, if_pos hlt, if_neg (Nat.lt_asymm hlt), not_not]
  · rw [Before, Before, if_neg (Nat.lt_asymm hlt), if_pos hlt]

theorem StandsAt.exists_item (hf : sel.IsFilled) (hm : sel.IsMatching) (h : sel.StandsAt site i) :
    (∃ item, sel.item? site = some item) ∧ ∃ item, sel.item? i = some item := by
  rcases h with ⟨rfl, hi, _⟩ | ⟨⟨item, hi, _⟩, y, hy, rfl⟩
  · exact ⟨hi, hi⟩
  · obtain ⟨_, _, _, hcy, _⟩ := hm.carries_of_link hf hy
    obtain ⟨_, item', hi', _⟩ := carries_iff.1 hcy
    exact ⟨⟨item, hi⟩, item', hi'⟩

theorem PinnedAt.exists_item (hf : sel.IsFilled) (hm : sel.IsMatching) (ha : a < sel.schema.slotCount)
    (h : sel.PinnedAt a p) (hc : sel.Carries p f) : ∃ item, sel.item? a = some item := by
  have hfirst : ∃ g, sel.Carries (sel.schema.lexicalPoint a) g := by
    rcases ReflTransGen.cases_head h with he | ⟨q, hq, _⟩
    · exact ⟨f, he ▸ hc⟩
    · cases hq with
      | project hg _ _ => exact ⟨_, hg⟩
      | moveOn hlt hs hl =>
        obtain ⟨g, hg, _⟩ := carries_of_mem_landings hf hlt hs hl
        exact ⟨g, hg⟩
      | stay hst _ =>
        obtain ⟨_, g, _, hg, _⟩ := hm.carries_of_link hf hst.1
        exact ⟨g, hg⟩
  obtain ⟨g, hg⟩ := hfirst
  obtain ⟨item, hi⟩ := hg.exists_item
  rw [hf.built.slotOf_lexicalPoint ha] at hi
  exact ⟨item, hi⟩

theorem Precedes.exists_item (hf : sel.IsFilled) (hm : sel.IsMatching) (ha : a < sel.schema.slotCount)
    (hb : b < sel.schema.slotCount) (h : sel.Precedes a b) :
    (∃ item, sel.item? a = some item) ∧ ∃ item, sel.item? b = some item := by
  obtain ⟨x, y, hst, h⟩ := h
  obtain ⟨f, g, hx, hy, _⟩ := hm.carries_of_link hf hst.1
  rcases h with ⟨_, hax, hby⟩ | ⟨_, hbx, hay⟩
  · exact ⟨hax.exists_item hf hm ha hx, hby.exists_item hf hm hb hy⟩
  · exact ⟨hay.exists_item hf hm ha hy, hbx.exists_item hf hm hb hx⟩

section Derivation

variable (hf : sel.IsFilled) (hd : sel.IsDerivation)
include hf hd

theorem transGen_root (hc : sel.Carries p f) (hne : f.polarity ≠ .category) : TransGen sel.Step p sel.root := by
  rcases hd.isAcyclic.isConnected hf hd.toIsMatching hd.hasRoot p f hc with rfl | h
  · obtain ⟨g, hg, hcat⟩ := hd.hasRoot.isTop_root
    exact absurd (hc.unique hg ▸ hcat) hne
  · exact (dominates_iff hf hd.isAcyclic hc.1).1 h

theorem reflTransGen_root (hc : sel.Carries p f) : ReflTransGen sel.Step p sel.root := by
  rcases hd.isAcyclic.isConnected hf hd.toIsMatching hd.hasRoot p f hc with rfl | h
  · exact .refl
  · exact ((dominates_iff hf hd.isAcyclic hc.1).1 h).to_reflTransGen

theorem mem_leaves_root (ht : sel.Builds sel.root t) : a ∈ t.leaves ↔ ∃ item, sel.item? a = some item := by
  rw [ht.mem_leaves hf hd.toIsMatching]
  refine and_iff_left_of_imp fun ⟨item, hi⟩ => ?_
  obtain ⟨f, hc, _⟩ := hf.carries_lexicalPoint hi
  exact reflTransGen_root hf hd hc

theorem mem_hosts_root (ht : sel.Builds sel.root t) : (a, b) ∈ t.hosts ↔ sel.TakesUp a b := by
  rw [ht.mem_hosts hf hd.toIsMatching]
  refine and_iff_left_of_imp fun h => ?_
  obtain ⟨_, f, hc, _, hpol⟩ := h.carries hf
  exact transGen_root hf hd hc (by rw [hpol]; decide)

theorem mem_landings_root (ht : sel.Builds sel.root t) {ref : FeatureRef} :
    ref ∈ t.landings ↔ ∃ l ∈ sel.landings, ref = sel.featureRef l := by
  rw [ht.mem_landings hf hd.toIsMatching]
  refine exists_congr fun l => and_congr_right fun hl => and_iff_left_of_imp fun _ => ?_
  obtain ⟨g, hg, hpol⟩ := mem_landings.1 hl
  exact transGen_root hf hd hg (by rw [hpol]; decide)

theorem exists_order (ht : sel.Builds sel.root t) : ∃ O : List SlotId,
    t.spellout = (O.flatMap fun l => (Spellout.ofLeaf t.hosts l).order) ∧ O.Pairwise sel.Precedes ∧
      ∀ a, a ∈ O ↔ ∃ item, sel.item? a = some item := by
  have hs := ht.spelled hf hd fun _ => mem_landings_root hf hd ht
  have hempty : (t.spell [] t.landings).waiting = [] := by
    rw [List.eq_nil_iff_forall_not_mem]
    intro x hx
    obtain ⟨_, l, _, _, hl, _, _, hn⟩ := (hs.mem_keys x.1).1 (List.mem_map.2 ⟨x, hx, rfl⟩)
    obtain ⟨g, hg, hpol⟩ := mem_landings.1 hl.1
    exact hn (transGen_root hf hd hg (by rw [hpol]; decide))
  refine ⟨(t.spell [] t.landings).order, ?_, hs.ordered, fun a => ?_⟩
  · rw [Tree.spellout, Tree.spell_eq_flatMap, Spellout.flatMap]
  · rw [← mem_leaves_root hf hd ht, hs.mem_leaves, hempty]
    simp

omit hf in
theorem TakesUp.unique (h : sel.TakesUp site i) (h' : sel.TakesUp site j) : i = j := by
  obtain ⟨_, y, hy, rfl⟩ := h
  obtain ⟨_, y', hy', rfl⟩ := h'
  rw [hd.target_unique _ _ _ hy hy']

omit hd in
theorem TakesUp.host_unique (hm : sel.IsMatching) (h : sel.TakesUp a i) (h' : sel.TakesUp b i) : a = b := by
  have target : ∀ {a}, sel.TakesUp a i → ∃ y k, (sel.Carries y k ∧ k.polarity = .selectee) ∧
      (sel.schema.lexicalPoint a, y) ∈ sel.links ∧ sel.schema.slotOf y = i := by
    intro a ha
    obtain ⟨_, f, hc, _, hpol⟩ := ha.carries hf
    obtain ⟨_, y, hy, hs⟩ := ha
    obtain ⟨f', k, hc', hk, hck⟩ := hm.carries_of_link hf hy
    refine ⟨y, k, ⟨hk, Polarity.eq_selectee_of_isTarget (isTarget_of_checks hck) fun hl => ?_⟩, hy, hs⟩
    rw [hc.unique hc', (licensor_iff_of_checks hck).2 hl] at hpol
    cases hpol
  obtain ⟨y, k, ⟨hy, hk⟩, hly, hs⟩ := target h
  obtain ⟨z, k', ⟨hz, hk'⟩, hlz, hs'⟩ := target h'
  rw [selectee_unique hf hy hk hz hk' (hs.trans hs'.symm)] at hly
  have hpoint := hm.trigger_unique _ _ _ hly hlz
  rw [← hf.built.slotOf_lexicalPoint (h.carries hf).1, hpoint, hf.built.slotOf_lexicalPoint (h'.carries hf).1]

omit hd in
theorem StandsAt.unique (hm : sel.IsMatching) (h : sel.StandsAt a i) (h' : sel.StandsAt b i) : a = b := by
  rcases h with ⟨rfl, _, hfree⟩ | h <;> rcases h' with ⟨rfl, _, hfree'⟩ | h'
  · rfl
  · exact absurd h' (hfree b)
  · exact absurd h (hfree' a)
  · exact h.host_unique hf hm h'

theorem TakesUp.not_takesUp (h : sel.TakesUp site i) {host : SlotId} : ¬sel.TakesUp host site := fun h' =>
  (isProperMover_iff hf hd.toIsMatching).1 hd.isProperMover host site h' h.1

theorem order_ofLeaf (ht : sel.Builds sel.root t) (ha : ∃ item, sel.item? a = some item) :
    (∀ i, i ∈ (Spellout.ofLeaf t.hosts a).order ↔ sel.StandsAt a i) ∧
      (Spellout.ofLeaf t.hosts a).order.Pairwise fun i j => i ≠ j ∧ j = a := by
  have hhosts := fun {a b} => mem_hosts_root (a := a) (b := b) hf hd ht
  have hany : t.hosts.any (·.2 = a) = true ↔ ∃ host, sel.TakesUp host a := by
    simp only [List.any_eq_true, Prod.exists, decide_eq_true_eq, hhosts]
    exact ⟨fun ⟨h, _, ht, he⟩ => ⟨h, he ▸ ht⟩, fun ⟨h, ht⟩ => ⟨h, a, ht, rfl⟩⟩
  rw [Spellout.ofLeaf]
  split
  · rename_i htaken
    obtain ⟨host, htaken⟩ := hany.1 htaken
    refine ⟨fun i => ⟨fun h => absurd h List.not_mem_nil, ?_⟩, .nil⟩
    rintro (⟨rfl, _, hn⟩ | h)
    · exact absurd htaken (hn host)
    · exact absurd htaken (h.not_takesUp hf hd)
  · rename_i hfree
    rw [hany, not_exists] at hfree
    -- the leaf is spoken here, after the head it has taken up if there is one
    cases hl : t.hosts.lookup a with
    | none =>
      have hno : ∀ i, ¬sel.TakesUp a i := by
        intro i h
        obtain ⟨b, hb⟩ := exists_lookup (List.mem_map.2 ⟨(a, i), hhosts.2 h, rfl⟩)
        rw [hl] at hb
        cases hb
      refine ⟨fun i => ?_, by simp⟩
      rw [StandsAt, or_iff_left (hno i)]
      simp only [Option.toList_none, List.nil_append, List.mem_singleton]
      exact ⟨fun he => ⟨he.symm, he ▸ ha, he ▸ hfree⟩, fun h => h.1.symm⟩
    | some b =>
      have hb := hhosts.1 (mem_of_lookup hl)
      have hne : b ≠ a := by
        rintro rfl
        exact hfree b hb
      refine ⟨fun i => ?_, by simp [hne]⟩
      simp only [Option.toList_some, List.singleton_append, List.mem_cons, List.not_mem_nil, or_false, StandsAt]
      constructor
      · rintro (rfl | rfl)
        · exact .inr hb
        · exact .inl ⟨rfl, ha, hfree⟩
      · rintro (⟨rfl, _⟩ | h)
        · exact .inr rfl
        · exact .inl (h.unique hd hb)

omit hf hd in
theorem exists_standsAt (hi : ∃ item, sel.item? i = some item) : ∃ site, sel.StandsAt site i := by
  by_cases h : ∃ host, sel.TakesUp host i
  · obtain ⟨host, h⟩ := h
    exact ⟨host, .inr h⟩
  · exact ⟨i, .inl ⟨rfl, hi, fun host hh => h ⟨host, hh⟩⟩⟩

/-- Words that stand at different sites come in the order of these; at one site the host comes last. -/
theorem pairwise_spellout (ht : sel.Builds sel.root t)
    (hO : t.spellout = O.flatMap fun l => (Spellout.ofLeaf t.hosts l).order)
    (hmem : ∀ a, a ∈ O ↔ ∃ item, sel.item? a = some item) {R : SlotId → SlotId → Prop} (hR : O.Pairwise R) :
    t.spellout.Pairwise fun i j => ∃ a b, (sel.StandsAt a i ∧ sel.StandsAt b j) ∧
      (R a b ∨ (a = b ∧ i ≠ j ∧ j = a)) := by
  rw [hO, List.pairwise_flatMap]
  constructor
  · intro a ha
    obtain ⟨hstands, hpair⟩ := order_ofLeaf hf hd ht ((hmem a).1 ha)
    refine hpair.imp_of_mem fun {i j} hi hj h => ?_
    exact ⟨a, a, ⟨(hstands i).1 hi, (hstands j).1 hj⟩, .inr ⟨rfl, h⟩⟩
  · refine hR.imp_of_mem fun {a b} ha hb hab i hi j hj => ?_
    exact ⟨a, b, ⟨((order_ofLeaf hf hd ht ((hmem a).1 ha)).1 i).1 hi, ((order_ofLeaf hf hd ht ((hmem b).1 hb)).1 j).1 hj⟩,
      .inl hab⟩

theorem mem_spellout (ht : sel.Builds sel.root t)
    (hO : t.spellout = O.flatMap fun l => (Spellout.ofLeaf t.hosts l).order)
    (hmem : ∀ a, a ∈ O ↔ ∃ item, sel.item? a = some item) :
    i ∈ t.spellout ↔ ∃ item, sel.item? i = some item := by
  rw [hO, List.mem_flatMap]
  constructor
  · rintro ⟨a, ha, hi⟩
    exact ((((order_ofLeaf hf hd ht ((hmem a).1 ha)).1 i).1 hi).exists_item hf hd.toIsMatching).2
  · intro hi
    obtain ⟨a, ha⟩ := exists_standsAt hi
    have hitem := (ha.exists_item hf hd.toIsMatching).1
    exact ⟨a, (hmem a).2 hitem, ((order_ofLeaf hf hd ht hitem).1 i).2 ha⟩

/-- An order that checks and words agree with puts the words into order. -/
theorem IsOrdered.isInOrder (h : sel.IsOrdered D) : sel.IsInOrder := by
  obtain ⟨t, htree, ht⟩ := hd.exists_tree hf
  obtain ⟨O, hO, hprec, hmem⟩ := exists_order hf hd ht
  have hbefore : O.Pairwise fun a b => a ≠ b ∧ Before D a b :=
    hprec.imp_of_mem fun {a b} ha hb hab => by
      obtain ⟨_, hia⟩ := (hmem a).1 ha
      obtain ⟨_, hib⟩ := (hmem b).1 hb
      exact ⟨hab.ne hf hd, h.before_of_precedes a b (hf.item_lt hia) (hf.item_lt hib) hab⟩
  have hlt : (t.spellout.filter (· < sel.schema.words.length)).Pairwise (· < ·) := by
    rw [List.pairwise_filter]
    refine (pairwise_spellout hf hd ht hO hmem hbefore).imp ?_
    rintro i j ⟨a, b, ⟨hi, hj⟩, hab⟩ hin hjn
    rw [decide_eq_true_iff] at hin hjn
    by_contra hle
    rcases hab with ⟨hne, hab⟩ | ⟨rfl, hne, rfl⟩
    · rcases Nat.lt_or_eq_of_le (Nat.not_lt.1 hle) with hji | rfl
      · exact (before_iff_not hne).1 hab (h.before_of_lt j i b a hji hin hj hi hne.symm)
      · exact hne (hi.unique hf hd.toIsMatching hj)
    · exact hne (h.eq_of_lt j i j (Nat.lt_of_le_of_ne (Nat.not_lt.1 hle) (Ne.symm hne)) hin hj hi).symm
  refine ⟨t, htree, ?_⟩
  refine List.Perm.eq_of_pairwise ?_ hlt List.pairwise_lt_range ?_
  · intro i j _ _ hij hji
    omega
  · refine (List.perm_ext_iff_of_nodup (hlt.imp fun h => Nat.ne_of_lt h) List.nodup_range).2 fun i => ?_
    rw [List.mem_filter, List.mem_range, decide_eq_true_iff]
    exact and_iff_right_of_imp fun hi => (mem_spellout hf hd ht hO hmem).2 (hf.words i hi)

/-- Words in order are so by the order in which their sites are pronounced. -/
theorem IsInOrder.exists_isOrdered (h : sel.IsInOrder) : ∃ D, sel.IsOrdered D := by
  have hm := hd.toIsMatching
  obtain ⟨t, htree, hwords⟩ := h
  have ht := hd.builds_root hf htree
  obtain ⟨O, hO, hprec, hmem⟩ := exists_order hf hd ht
  have before : ∀ {a b}, a ≠ b → a ∈ O → (Before (fun a b => O.idxOf a < O.idxOf b) a b ↔ O.idxOf a < O.idxOf b) := by
    intro a b hne ha
    rw [Before]
    split
    · rfl
    · rw [Nat.not_lt]
      refine ⟨fun hle => Nat.lt_of_le_of_ne hle fun he => hne ((List.idxOf_inj ha).1 he), Nat.le_of_lt⟩
  have total : ∀ {l : List SlotId} {a b}, a ≠ b → a ∈ l → ¬l.idxOf a < l.idxOf b → l.idxOf b < l.idxOf a :=
    fun hne ha h => Nat.lt_of_le_of_ne (Nat.not_lt.1 h) fun he => hne ((List.idxOf_inj ha).1 he.symm)
  -- no word comes after a later one
  have hlt : t.spellout.Pairwise fun i j => i < sel.schema.words.length → j < sel.schema.words.length → i < j := by
    have := hwords ▸ List.pairwise_lt_range (n := sel.schema.words.length)
    simpa only [List.pairwise_filter, decide_eq_true_eq] using this
  rw [hO, List.pairwise_flatMap] at hlt
  -- an item precedes another if it comes first in the spelled-out order
  refine ⟨fun a b => O.idxOf a < O.idxOf b, fun a b ha hb hab => ?_, fun i j a b hij hj hai hbj hne => ?_, fun i j a hij hj hai haj => ?_⟩
  · obtain ⟨hia, hib⟩ := hab.exists_item hf hm ha hb
    rw [before (hab.ne hf hd) ((hmem a).2 hia)]
    by_contra hle
    have hidx := total (hab.ne hf hd) ((hmem a).2 hia) hle
    exact hab.asymm hf hd (rel_of_pairwise hprec ((hmem b).2 hib) ((hmem a).2 hia) hidx)
  · have hia := (hai.exists_item hf hm).1
    have hib := (hbj.exists_item hf hm).1
    rw [before hne ((hmem a).2 hia)]
    by_contra hle
    have hidx := total hne ((hmem a).2 hia) hle
    have := rel_of_pairwise hlt.2 ((hmem b).2 hib) ((hmem a).2 hia) hidx j
      (((order_ofLeaf hf hd ht hib).1 j).2 hbj) i (((order_ofLeaf hf hd ht hia).1 i).2 hai) hj (Nat.lt_trans hij hj)
    omega
  · by_contra hne
    have hitem := (hai.exists_item hf hm).1
    obtain ⟨hstands, hlast⟩ := order_ofLeaf hf hd ht hitem
    have hi := (hstands i).2 hai
    have hj' := (hstands j).2 haj
    have hidx := total (Nat.ne_of_lt hij) hi fun h => hne (rel_of_pairwise hlast hi hj' h).2.symm
    have := rel_of_pairwise (hlt.1 a ((hmem a).2 hitem)) hj' hi hidx hj (Nat.lt_trans hij hj)
    omega

theorem isInOrder_iff_exists : sel.IsInOrder ↔ ∃ D, sel.IsOrdered D :=
  ⟨fun h => h.exists_isOrdered hf hd, fun ⟨_, h⟩ => h.isInOrder hf hd⟩

end Derivation

end Selection

end MinimalistGrammar
