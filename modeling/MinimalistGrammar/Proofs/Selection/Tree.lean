import MinimalistGrammar.Proofs.Derivation.Spellout
import MinimalistGrammar.Proofs.Selection.Hosts

/-!
The tree of a selection. A phrase at a point is built from the phrases at the points of one check, so in a
derivation each point has one, and its leaves are the slots that stand below.
-/

open Relation

namespace MinimalistGrammar

namespace Selection

variable {sel : Selection} {p q x y c : PointId} {f g k : Feature} {t t' : Tree} {n : Nat} {slot : SlotId}

/-- The phrase at a point, with slots for leaves; none if that is deeper than `n`. -/
def treeAt (sel : Selection) : Nat → PointId → Option Tree
  | 0, _ => none
  | n + 1, p =>
    match sel.schema.predecessor p with
    | none => some (.lexical (sel.schema.slotOf p))
    | some head => do
      let target ← sel.partner head
      let check : Check := ⟨sel.featureRef head, sel.featureRef target⟩
      let headTree ← sel.treeAt n head
      if sel.isLanding target then return .move headTree check
      let takesHead := (sel.feature? head).any (·.movesHead)
      return .merge takesHead headTree (← sel.treeAt n target) check

/-- The phrase at the root. -/
def tree (sel : Selection) : Option Tree := sel.treeAt sel.schema.pointCount sel.root

/-- The check at `x` of the target at `y` leads to the point `p`. -/
structure Projects (sel : Selection) (p x y : PointId) (f k : Feature) : Prop where
  trigger : sel.Carries x f
  target : sel.Carries y k
  checks : f.checks k = true
  link : (x, y) ∈ sel.links
  successor : sel.schema.successor x = some p

/-- The phrase at a point. -/
inductive Builds (sel : Selection) : PointId → Tree → Prop
  | lexical {p : PointId} {f : Feature} : sel.Carries p f → sel.schema.predecessor p = none →
      Builds sel p (.lexical (sel.schema.slotOf p))
  | merge {p x y : PointId} {f k : Feature} {h a : Tree} : sel.Projects p x y f k → k.polarity ≠ .licensee → Builds sel x h → Builds sel y a →
      Builds sel p (.merge f.movesHead h a ⟨sel.featureRef x, sel.featureRef y⟩)
  | move {p x y : PointId} {f k : Feature} {h : Tree} : sel.Projects p x y f k → k.polarity = .licensee → Builds sel x h →
      Builds sel p (.move h ⟨sel.featureRef x, sel.featureRef y⟩)

section Steps

variable (hf : sel.IsFilled) (hm : sel.IsMatching)
include hf

theorem Projects.predecessor (h : sel.Projects p x y f k) : sel.schema.predecessor p = some x :=
  (hf.built.predecessor_eq_some (hf.slotOf_successor h.successor).1).2 ⟨h.trigger.1, h.successor⟩

theorem Projects.lt (h : sel.Projects p x y f k) : p < sel.schema.pointCount := (hf.slotOf_successor h.successor).1

theorem Projects.carries (h : sel.Projects p x y f k) : ∃ g, sel.Carries p g ∧ g.polarity ≠ .licensee := by
  obtain ⟨q, g, hs, hg, hl⟩ := hf.successor_of_isTrigger h.trigger (isTrigger_of_checks h.checks)
  rw [h.successor, Option.some.injEq] at hs
  exact ⟨g, hs ▸ hg, hl⟩

omit hf in
theorem Projects.ne_licensee (h : sel.Projects p x y f k) : f.polarity ≠ .licensee := by
  intro hl
  have ht := isTrigger_of_checks h.checks
  rw [hl] at ht
  cases ht

omit hf in
theorem Projects.step_trigger (h : sel.Projects p x y f k) : sel.Step x p :=
  (step_of_isTrigger h.trigger (isTrigger_of_checks h.checks)).2 h.successor

include hm

omit hf in
theorem Projects.step_target (h : sel.Projects p x y f k) : sel.Step y p :=
  (hm.step_of_isTarget h.target (isTarget_of_checks h.checks)).2 ⟨x, h.link, h.successor⟩

theorem Projects.step_iff (h : sel.Projects p x y f k) (hc : c < sel.schema.pointCount) :
    sel.Step c p ↔ c = x ∨ c = y := by
  constructor
  · intro hs
    rcases (hm.step_iff hf hc).1 hs with ⟨_, _, _, hsucc⟩ | ⟨x', hx', hsucc⟩
    · exact .inl (hf.successor_injective hc h.trigger.1 hsucc h.successor)
    · have := hf.successor_injective (hf.links_lt _ _ hx').1 h.trigger.1 hsucc h.successor
      exact .inr (hm.target_unique x c y (this ▸ hx') h.link)
  · rintro (rfl | rfl)
    · exact h.step_trigger
    · exact h.step_target hm

theorem exists_projects (hg : sel.Carries p g) (hl : g.polarity ≠ .licensee)
    (hx : sel.schema.predecessor p = some x) : ∃ y f k, sel.Projects p x y f k := by
  obtain ⟨y, f, k, hcx, hcy, hc, hlink, hs⟩ := hm.exists_check hf hg hl hx
  exact ⟨y, f, k, hcx, hcy, hc, hlink, hs⟩

theorem exists_projects_of_link (hl : (x, y) ∈ sel.links) : ∃ p f k, sel.Projects p x y f k := by
  obtain ⟨f, k, hx, hy, hc⟩ := hm.carries_of_link hf hl
  obtain ⟨p, _, hp, _⟩ := hf.successor_of_isTrigger hx (isTrigger_of_checks hc)
  exact ⟨p, f, k, hx, hy, hc, hl, hp⟩

theorem Projects.unique {x' y' : PointId} {f' k' : Feature} (h : sel.Projects p x y f k) (h' : sel.Projects p x' y' f' k') :
    (x = x' ∧ y = y') ∧ f = f' ∧ k = k' := by
  obtain rfl : x = x' := Option.some.inj ((h.predecessor hf).symm.trans (h'.predecessor hf))
  obtain rfl := hm.target_unique x y y' h.link h'.link
  exact ⟨⟨rfl, rfl⟩, h.trigger.unique h'.trigger, h.target.unique h'.target⟩

/-- There is one phrase at a point. -/
theorem Builds.unique (h : sel.Builds p t) (h' : sel.Builds p t') : t = t' := by
  have lexical : ∀ {p x y f k}, sel.Projects p x y f k → sel.schema.predecessor p ≠ none := by
    intro p x y f k hp hn
    rw [hp.predecessor hf] at hn
    cases hn
  -- whether a point has a predecessor, and whether its check is a movement, tell the three kinds apart
  induction h generalizing t' with
  | lexical _ hn =>
    cases h' with
    | lexical _ _ => rfl
    | merge hp _ _ _ => exact absurd hn (lexical hp)
    | move hp _ _ => exact absurd hn (lexical hp)
  | merge hp hk _ _ ihh iha =>
    cases h' with
    | lexical _ hn => exact absurd hn (lexical hp)
    | merge hp' _ hh' ha' =>
      obtain ⟨⟨rfl, rfl⟩, rfl, rfl⟩ := hp.unique hf hm hp'
      rw [ihh hh', iha ha']
    | move hp' hk' _ =>
      obtain ⟨_, _, rfl⟩ := hp.unique hf hm hp'
      exact absurd hk' hk
  | move hp hk _ ih =>
    cases h' with
    | lexical _ hn => exact absurd hn (lexical hp)
    | merge hp' hk' _ _ =>
      obtain ⟨_, _, rfl⟩ := hp.unique hf hm hp'
      exact absurd hk hk'
    | move hp' _ hh' =>
      obtain ⟨⟨rfl, rfl⟩, _, _⟩ := hp.unique hf hm hp'
      rw [ih hh']

theorem not_step_of_predecessor_none (hp : sel.schema.predecessor p = none)
    (hc : c < sel.schema.pointCount) : ¬sel.Step c p := by
  intro hs
  have hno : ∀ x, x < sel.schema.pointCount → sel.schema.successor x ≠ some p := by
    intro x hx hsucc
    have := (hf.built.predecessor_eq_some (hf.slotOf_successor hsucc).1).2 ⟨hx, hsucc⟩
    rw [hp] at this
    cases this
  rcases (hm.step_iff hf hc).1 hs with ⟨_, _, _, hsucc⟩ | ⟨x, hx, hsucc⟩
  · exact hno c hc hsucc
  · exact hno x (hf.links_lt _ _ hx).1 hsucc

theorem not_step_of_licensee (hg : sel.Carries p g) (hl : g.polarity = .licensee)
    (hc : c < sel.schema.pointCount) : ¬sel.Step c p := by
  intro hs
  obtain ⟨_, g', hg', hl'⟩ := hm.carries_of_step hf hc hs
  rw [hg'.unique hg] at hl'
  exact hl' hl

end Steps

section Existence

variable (hf : sel.IsFilled)
include hf

theorem Builds.lt (h : sel.Builds p t) : p < sel.schema.pointCount := by
  cases h with
  | lexical hc _ => exact hc.1
  | merge hp _ _ _ => exact hp.lt hf
  | move hp _ _ => exact hp.lt hf

theorem Builds.carries (h : sel.Builds p t) : ∃ g, sel.Carries p g ∧ g.polarity ≠ .licensee := by
  cases h with
  | @lexical p f hc hn =>
    refine ⟨f, hc, fun hl => ?_⟩
    obtain ⟨x, _, hx, _⟩ := hf.predecessor_of_licensee hc hl
    rw [hn] at hx
    cases hx
  | merge hp _ _ _ => exact hp.carries hf
  | move hp _ _ => exact hp.carries hf

theorem builds_of_treeAt (hm : sel.IsMatching) (hg : sel.Carries p g) (hl : g.polarity ≠ .licensee)
    (h : sel.treeAt n p = some t) : sel.Builds p t := by
  induction n generalizing p g t with
  | zero => cases h
  | succ n ih =>
    rw [treeAt] at h
    split at h
    · rename_i hn
      cases h
      exact .lexical hg hn
    · rename_i x hx
      obtain ⟨y, f, k, hp⟩ := exists_projects hf hm hg hl hx
      simp only [hm.partner_eq_some.2 hp.link, Option.bind_eq_bind, Option.bind_some] at h
      obtain ⟨h', hh', h⟩ := Option.bind_eq_some_iff.1 h
      have hbh := ih hp.trigger (hp.ne_licensee) hh'
      have hland : sel.isLanding y = decide (k.polarity = .licensee) := by
        rw [isLanding, hp.target.2, Option.any_some]
      split at h
      · rename_i hk
        cases h
        rw [hland, decide_eq_true_iff] at hk
        exact .move hp hk hbh
      · rename_i hk
        obtain ⟨a, ha, h⟩ := Option.bind_eq_some_iff.1 h
        cases h
        rw [hland, decide_eq_true_iff] at hk
        rw [hp.trigger.2, Option.any_some]
        exact .merge hp hk hbh (ih hp.target hk ha)

/-- Every point that is no landing has a phrase. -/
theorem exists_treeAt (hm : sel.IsMatching) (ha : sel.IsAcyclic) (hg : sel.Carries p g)
    (hl : g.polarity ≠ .licensee) (hn : sel.schema.pointCount ≤ n + (sel.ancestors p).length) :
    ∃ t, sel.treeAt n p = some t := by
  -- by the fuel, which is enough for all points that are not above `p`
  induction n generalizing p g with
  | zero =>
    have := length_climb_lt hf ha hg.1 (n := sel.schema.pointCount)
    rw [ancestors] at hn
    omega
  | succ n ih =>
    rw [treeAt]
    split
    · exact ⟨_, rfl⟩
    · rename_i x hx
      obtain ⟨y, f, k, hp⟩ := exists_projects hf hm hg hl hx
      have hlx := length_ancestors_of_step hf ha hp.trigger.1 (hp.step_trigger)
      have hly := length_ancestors_of_step hf ha hp.target.1 (hp.step_target hm)
      obtain ⟨h, hh⟩ := ih hp.trigger (hp.ne_licensee) (by omega)
      have hland : sel.isLanding y = decide (k.polarity = .licensee) := by
        rw [isLanding, hp.target.2, Option.any_some]
      simp only [hm.partner_eq_some.2 hp.link, Option.bind_eq_bind, Option.bind_some, hh]
      split
      · exact ⟨_, rfl⟩
      · rename_i hk
        rw [hland, decide_eq_true_iff] at hk
        obtain ⟨a, ha'⟩ := ih hp.target hk (by omega)
        simp only [ha', Option.bind_some]
        exact ⟨_, rfl⟩

theorem IsDerivation.exists_tree (hd : sel.IsDerivation) : ∃ t, sel.tree = some t ∧ sel.Builds sel.root t := by
  obtain ⟨g, hg, hcat⟩ := hd.hasRoot.isTop_root
  have hl : g.polarity ≠ .licensee := by
    rw [hcat]
    decide
  obtain ⟨t, ht⟩ := exists_treeAt hf hd.toIsMatching hd.isAcyclic hg hl (Nat.le_add_right sel.schema.pointCount _)
  exact ⟨t, ht, builds_of_treeAt hf hd.toIsMatching hg hl ht⟩

theorem IsDerivation.builds_root (hd : sel.IsDerivation) (ht : sel.tree = some t) : sel.Builds sel.root t := by
  obtain ⟨t', ht', hb⟩ := hd.exists_tree hf
  rw [ht, Option.some.injEq] at ht'
  exact ht' ▸ hb

end Existence

section Leaves

variable (hf : sel.IsFilled) (hm : sel.IsMatching)
include hf

theorem Builds.head_eq (h : sel.Builds p t) : t.head = sel.schema.slotOf p := by
  induction h with
  | lexical _ _ => rfl
  | merge hp _ _ _ ih _ => exact ih.trans (hf.slotOf_successor hp.successor).2.1.symm
  | move hp _ _ ih => exact ih.trans (hf.slotOf_successor hp.successor).2.1.symm

theorem Builds.index_eq (h : sel.Builds p t) : t.index = (sel.schema.point p).index := by
  induction h with
  | lexical hc hn => exact ((hf.built.predecessor_eq_none hc.1).1 hn).symm
  | merge hp _ _ _ ih _ => rw [Tree.index, ih, (hf.slotOf_successor hp.successor).2.2]
  | move hp _ _ ih => rw [Tree.index, ih, (hf.slotOf_successor hp.successor).2.2]

theorem Builds.isLexical_iff (h : sel.Builds p t) : t.isLexical = (sel.schema.point p).isLexical := by
  cases h with
  | lexical hc hn => simp [Tree.isLexical, Point.isLexical, (hf.built.predecessor_eq_none hc.1).1 hn]
  | merge hp _ _ _ => simp [Tree.isLexical, Point.isLexical, (hf.slotOf_successor hp.successor).2.2]
  | move hp _ _ => simp [Tree.isLexical, Point.isLexical, (hf.slotOf_successor hp.successor).2.2]

theorem lexicalPoint_slotOf (hp : p < sel.schema.pointCount) (hn : sel.schema.predecessor p = none) :
    sel.schema.lexicalPoint (sel.schema.slotOf p) = p := by
  exact (hf.built.eq_lexicalPoint hp ((hf.built.predecessor_eq_none hp).1 hn)).symm

theorem predecessor_lexicalPoint (hs : slot < sel.schema.slotCount) :
    sel.schema.predecessor (sel.schema.lexicalPoint slot) = none := by
  rw [hf.built.predecessor_eq_none (hf.built.lexicalPoint_lt hs), hf.built.point_lexicalPoint hs]

include hm

/-- What stands below a point is one of its check or stands below one. -/
theorem Projects.transGen_iff (h : sel.Projects p x y f k) (hc : c < sel.schema.pointCount) :
    TransGen sel.Step c p ↔ ReflTransGen sel.Step c x ∨ ReflTransGen sel.Step c y := by
  rw [TransGen.tail'_iff]
  constructor
  · rintro ⟨b, hb, hs⟩
    rcases (h.step_iff hf hm (reflTransGen_lt hf hc hb)).1 hs with rfl | rfl
    · exact .inl hb
    · exact .inr hb
  · rintro (hx | hy)
    · exact ⟨x, hx, h.step_trigger⟩
    · exact ⟨y, hy, h.step_target hm⟩

theorem Projects.reflTransGen_iff (h : sel.Projects p x y f k) (hc : c < sel.schema.pointCount) :
    ReflTransGen sel.Step c p ↔ c = p ∨ ReflTransGen sel.Step c x ∨ ReflTransGen sel.Step c y := by
  rw [reflTransGen_iff_eq_or_transGen, h.transGen_iff hf hm hc, eq_comm]

theorem not_transGen_of_licensee (hg : sel.Carries p g) (hl : g.polarity = .licensee)
    (hc : c < sel.schema.pointCount) : ¬TransGen sel.Step c p := by
  intro h
  obtain ⟨b, hb, hs⟩ := TransGen.tail'_iff.1 h
  exact not_step_of_licensee hf hm hg hl (reflTransGen_lt hf hc hb) hs

theorem not_transGen_of_predecessor_none (hp : sel.schema.predecessor p = none)
    (hc : c < sel.schema.pointCount) : ¬TransGen sel.Step c p := by
  intro h
  obtain ⟨b, hb, hs⟩ := TransGen.tail'_iff.1 h
  exact not_step_of_predecessor_none hf hm hp (reflTransGen_lt hf hc hb) hs

/-- The leaves are the filled slots that stand below. -/
theorem Builds.mem_leaves (h : sel.Builds p t) : slot ∈ t.leaves ↔
    (∃ item, sel.item? slot = some item) ∧ ReflTransGen sel.Step (sel.schema.lexicalPoint slot) p := by
  have below : ∀ {p x y f k}, sel.Projects p x y f k → (∃ item, sel.item? slot = some item) →
      (ReflTransGen sel.Step (sel.schema.lexicalPoint slot) p ↔
        ReflTransGen sel.Step (sel.schema.lexicalPoint slot) x ∨
          ReflTransGen sel.Step (sel.schema.lexicalPoint slot) y) := by
    rintro p x y f k hp ⟨item, hi⟩
    have hs := hf.item_lt hi
    refine (hp.reflTransGen_iff hf hm (hf.built.lexicalPoint_lt hs)).trans (or_iff_right fun he => ?_)
    have := predecessor_lexicalPoint hf hs
    rw [he, hp.predecessor hf] at this
    cases this
  induction h with
  | @lexical p f hc hn =>
    rw [Tree.leaves, List.mem_singleton]
    constructor
    · rintro rfl
      exact ⟨hc.exists_item, by rw [lexicalPoint_slotOf hf hc.1 hn]⟩
    · rintro ⟨⟨item, hi⟩, hr⟩
      have hs := hf.item_lt hi
      rcases reflTransGen_iff_eq_or_transGen.1 hr with he | ht
      · rw [he, Schema.slotOf, hf.built.point_lexicalPoint hs]
      · exact absurd ht (not_transGen_of_predecessor_none hf hm hn (hf.built.lexicalPoint_lt hs))
  | merge hp _ _ _ ihh iha =>
    rw [Tree.leaves, List.mem_append]
    refine (or_congr ihh iha).trans ?_
    rw [← and_or_left]
    exact and_congr_right fun hi => (below hp hi).symm
  | @move p x y f k h hp hl _ ih =>
    refine Iff.trans ih (and_congr_right fun hi => ?_)
    rw [below hp hi]
    -- the second part of a movement adds no leaf, since nothing stands below a landing
    refine (or_iff_left fun hr => ?_).symm
    obtain ⟨item, hi⟩ := hi
    have hs := hf.item_lt hi
    rcases reflTransGen_iff_eq_or_transGen.1 hr with he | ht
    · obtain ⟨z, _, hz, _⟩ := hf.predecessor_of_licensee hp.target hl
      rw [he, predecessor_lexicalPoint hf hs] at hz
      cases hz
    · exact not_transGen_of_licensee hf hm hp.target hl (hf.built.lexicalPoint_lt hs) ht

omit hf in
theorem Projects.disjoint (ha : sel.IsAcyclic) (h : sel.Projects p x y f k) (hx : ReflTransGen sel.Step c x)
    (hy : ReflTransGen sel.Step c y) : False := by
  have he := ha.isForest.eq_of_step hx hy h.step_trigger (h.step_target hm)
  have ht := isTrigger_of_checks h.checks
  rw [h.trigger.unique (he ▸ h.target), Polarity.isTrigger_of_isTarget (isTarget_of_checks h.checks)] at ht
  cases ht

theorem Builds.nodup_leaves (ha : sel.IsAcyclic) (h : sel.Builds p t) : t.leaves.Nodup := by
  induction h with
  | lexical _ _ => exact List.nodup_singleton _
  | merge hp _ hh ha' ihh iha =>
    refine List.nodup_append.2 ⟨ihh, iha, fun a hah b hba he => ?_⟩
    subst he
    exact hp.disjoint hm ha ((hh.mem_leaves hf hm).1 hah).2 ((ha'.mem_leaves hf hm).1 hba).2
  | move _ _ _ ih => exact ih

omit hm in
theorem Builds.reflTransGen_landing_iff (h : sel.Builds p t) (hc : c ∈ sel.landings) :
    ReflTransGen sel.Step c p ↔ TransGen sel.Step c p := by
  rw [reflTransGen_iff_eq_or_transGen]
  refine or_iff_right ?_
  rintro rfl
  obtain ⟨g, hg, hpol⟩ := Selection.mem_landings.1 hc
  obtain ⟨g', hg', hne⟩ := h.carries hf
  exact hne (hg'.unique hg ▸ hpol)

/-- The licensees by which phrases move in a tree are those whose landings are inside. -/
theorem Builds.mem_landings {ref : FeatureRef} (h : sel.Builds p t) : ref ∈ t.landings ↔
    ∃ l ∈ sel.landings, ref = sel.featureRef l ∧ TransGen sel.Step l p := by
  induction h with
  | @lexical p f hc hn =>
    simp only [Tree.landings, List.not_mem_nil, false_iff, not_exists, not_and]
    exact fun l hl _ => not_transGen_of_predecessor_none hf hm hn (lt_of_mem_landings hl)
  | merge hp _ hh ha' ihh iha =>
    rw [Tree.landings, List.mem_append]
    refine (or_congr ihh iha).trans ?_
    rw [← exists_or]
    refine exists_congr fun l => ?_
    rw [← and_or_left, ← and_or_left]
    refine and_congr_right fun hl => and_congr_right fun _ => ?_
    rw [hp.transGen_iff hf hm (lt_of_mem_landings hl), hh.reflTransGen_landing_iff hf hl, ha'.reflTransGen_landing_iff hf hl]
  | @move p x y f k h hp hk hh ih =>
    rw [Tree.landings, List.mem_cons]
    refine (or_congr_right ih).trans ?_
    constructor
    · rintro (rfl | ⟨l, hl, hr, ht⟩)
      · exact ⟨y, Selection.mem_landings.2 ⟨k, hp.target, hk⟩, rfl, .single (hp.step_target hm)⟩
      · exact ⟨l, hl, hr, ht.tail hp.step_trigger⟩
    · rintro ⟨l, hl, rfl, ht⟩
      rcases (hp.transGen_iff hf hm (lt_of_mem_landings hl)).1 ht with hx | hy
      · exact .inr ⟨l, hl, rfl, (hh.reflTransGen_landing_iff hf hl).1 hx⟩
      · rcases reflTransGen_iff_eq_or_transGen.1 hy with rfl | hy
        · exact .inl rfl
        · exact absurd hy (not_transGen_of_licensee hf hm hp.target hk (lt_of_mem_landings hl))

omit hm in
theorem TakesUp.carries {host mover : SlotId} (h : sel.TakesUp host mover) : host < sel.schema.slotCount ∧
    ∃ f, sel.Carries (sel.schema.lexicalPoint host) f ∧ f.movesHead = true ∧ f.polarity = .selector := by
  have hs := h.1.elim fun item hi => hf.item_lt hi.1
  obtain ⟨f, hc, hmoves⟩ := (isHost_iff hf hs).1 h.1
  exact ⟨hs, f, hc, hmoves, (hf.index_eq_zero_of_movesHead hc hmoves).2⟩

omit hm in
theorem TakesUp.lexicalPoint_ne {host mover : SlotId} (h : sel.TakesUp host mover) (hy : sel.Carries y k)
    (hk : k.polarity ≠ .selector) : sel.schema.lexicalPoint host ≠ y := by
  rintro rfl
  obtain ⟨_, f, hc, _, hsel⟩ := h.carries hf
  exact hk (hc.unique hy ▸ hsel)

theorem Projects.mem_host_iff {host mover : SlotId} (h : sel.Projects p x y f k) :
    ((host, mover) ∈ if f.movesHead = true then [((sel.featureRef x).leaf, (sel.featureRef y).leaf)] else []) ↔
      sel.TakesUp host mover ∧ sel.schema.lexicalPoint host = x := by
  constructor
  · intro hmem
    split at hmem
    · rename_i hmoves
      obtain ⟨rfl, rfl⟩ := Prod.mk.inj (List.mem_singleton.1 hmem)
      have hx := (hf.index_eq_zero_of_movesHead h.trigger hmoves).1
      have hs := hf.built.slotOf_lt h.trigger.1
      exact ⟨⟨(isHost_iff hf hs).2 ⟨f, hx ▸ h.trigger, hmoves⟩, y, hx ▸ h.link, rfl⟩, hx.symm⟩
    · cases hmem
  · rintro ⟨ht, rfl⟩
    obtain ⟨hs, f', hc, hmoves, _⟩ := ht.carries hf
    obtain ⟨_, y', hy', rfl⟩ := ht
    rw [h.trigger.unique hc, if_pos hmoves, hm.target_unique _ _ _ h.link hy', List.mem_singleton]
    exact Prod.ext (hf.built.slotOf_lexicalPoint hs).symm rfl

/-- The hosts in a tree are those whose first projection is inside. -/
theorem Builds.mem_hosts {host mover : SlotId} (h : sel.Builds p t) : (host, mover) ∈ t.hosts ↔
    sel.TakesUp host mover ∧ TransGen sel.Step (sel.schema.lexicalPoint host) p := by
  have ne_selector : ∀ {f k : Feature}, f.checks k = true → k.polarity ≠ .selector := by
    intro f k hck hsel
    have ht := isTarget_of_checks hck
    rw [hsel] at ht
    cases ht
  induction h with
  | @lexical p f hc hn =>
    simp only [Tree.hosts, List.not_mem_nil, false_iff, not_and]
    exact fun ht => not_transGen_of_predecessor_none hf hm hn (hf.built.lexicalPoint_lt (ht.carries hf).1)
  | @merge p x y f k h a hp hk hh _ ihh iha =>
    rw [Tree.hosts, List.append_assoc, List.mem_append, List.mem_append, hp.mem_host_iff hf hm]
    refine (or_congr_right (or_congr ihh iha)).trans ?_
    rw [← and_or_left, ← and_or_left]
    refine and_congr_right fun ht => ?_
    rw [hp.transGen_iff hf hm (hf.built.lexicalPoint_lt (ht.carries hf).1), reflTransGen_iff_eq_or_transGen,
      reflTransGen_iff_eq_or_transGen]
    have := ht.lexicalPoint_ne hf hp.target (ne_selector hp.checks)
    grind
  | @move p x y f k h hp hk hh ih =>
    refine Iff.trans ih (and_congr_right fun ht => ?_)
    have hlt := hf.built.lexicalPoint_lt (ht.carries hf).1
    have hy := ht.lexicalPoint_ne hf hp.target (ne_selector hp.checks)
    have hx := ht.lexicalPoint_ne hf hp.trigger (by rw [(licensor_iff_of_checks hp.checks).2 hk]; decide)
    have hty := not_transGen_of_licensee hf hm hp.target hk hlt
    rw [hp.transGen_iff hf hm hlt, reflTransGen_iff_eq_or_transGen, reflTransGen_iff_eq_or_transGen]
    grind

end Leaves

end Selection

end MinimalistGrammar
