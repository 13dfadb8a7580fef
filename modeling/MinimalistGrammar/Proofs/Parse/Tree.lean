import MinimalistGrammar.Proofs.Encoding.Skeleton
import MinimalistGrammar.Proofs.Parse.Agreement

/-!
The tree that choices and links form, told by the literals for what stands directly below what. No clause says that these
lead nowhere in a circle. The clauses for dominance say it, as nothing can dominate itself, and for any tree they leave
just one way to fill in what dominates what.
-/

open Relation

namespace MinimalistGrammar

open MinimalistGrammar.Sat
open MinimalistGrammar.Sat.Builder

namespace Encoding

section Shape

variable (enc : Encoding) (a : Assignment)

/-- Some feature stands at the point. -/
def IsActive (p : PointId) : Prop := ∃ x ∈ enc.lexical.featuresAt p, x.2.value a = true

/-- A parent literal from one point to the other is true. -/
def IsBelow (p q : PointId) : Prop := ∃ l, (q, l) ∈ enc.dominance.parentsOf p ∧ l.value a = true

/-- How many parent literals of the point are true. -/
def parentCount (p : PointId) : Nat := (enc.dominance.parentsOf p).countP (·.2.value a)

/-- The active points form one tree under the only point with a category. -/
structure FormsTree (s : Schema) (enc : Encoding) (a : Assignment) (root : PointId) : Prop where
  root_lt : root < s.pointCount
  category_iff : ∀ p < s.pointCount, (enc.lexical.category p).value a = true ↔ p = root
  one_parent : ∀ p < s.pointCount, enc.IsActive a p → p ≠ root → enc.parentCount a p = 1
  no_parent : ∀ p < s.pointCount, (enc.IsActive a p → p = root) → enc.parentCount a p = 0
  reaches_root : ∀ p < s.pointCount, enc.IsActive a p → ReflTransGen (enc.IsBelow a) p root

end Shape

variable {lex : Lexicon} {words : List String} {bounds : Bounds} {s : Schema} {sel : Selection} {enc : Encoding}
  {families : List FamilySize} {f f₀ : Formula} {v : Valuation} {a : Assignment} {p q root : PointId}

theorem parentCount_eq_zero_iff : enc.parentCount a p = 0 ↔ ∀ q, ¬enc.IsBelow a p q := by
  rw [parentCount, List.countP_eq_zero]
  exact ⟨fun h q ⟨l, hl, ht⟩ => h (q, l) hl ht, fun h x hx ht => h x.1 ⟨x.2, hx, ht⟩⟩

theorem parentCount_eq_one_iff (hn : ((enc.dominance.parentsOf p).map (·.1)).Nodup) :
    enc.parentCount a p = 1 ↔ ∃ q, enc.IsBelow a p q ∧ ∀ q', enc.IsBelow a p q' → q' = q := by
  rw [parentCount, countP_eq_one_iff hn.of_map]
  constructor
  · rintro ⟨x, ⟨hx, ht⟩, hu⟩
    exact ⟨x.1, ⟨x.2, hx, ht⟩, fun q' ⟨l, hl, ht'⟩ => congrArg Prod.fst (hu (q', l) hl ht')⟩
  · rintro ⟨q, ⟨l, hl, ht⟩, hu⟩
    exact ⟨(q, l), ⟨hl, ht⟩, fun y hy ht' => List.inj_on_of_nodup_map hn hy hl (hu y.1 ⟨y.2, hy, ht'⟩)⟩

theorem parentsOf_eq (s : Schema) (p : PointId) : (result (build s) ∅).dominance.parentsOf p =
    if p < s.pointCount then Dominance.steps
      (Dominance.upward s (result (build s) ∅).lexical (result (build s) ∅).checking p) else [] :=
  Dominance.parentsOf_build _ _ _ p

section Described

variable (hf : sel.IsFilled) (hlex : (result (build sel.schema) ∅).lexical.Describes v sel)
  (hc : (result (build sel.schema) ∅).checking.Describes v sel)
include hlex

theorem isActive_iff (hf : sel.IsFilled) (hp : p < sel.schema.pointCount) :
    (result (build sel.schema) ∅).IsActive v.value p ↔ ∃ g, sel.Carries p g := by
  have hlists := hlex.features p hp
  constructor
  · rintro ⟨⟨g, l⟩, hx, ht⟩
    exact ⟨g, (hlists.denotes g l hx).2.1 ht⟩
  · rintro ⟨g, hg⟩
    obtain ⟨l, hl⟩ := exists_lookup ((hlists.mem_keys g).2 (Lexical.mayCarry_of_carries hf.mem_candidates hg))
    have hx := mem_of_lookup hl
    exact ⟨(g, l), hx, (hlists.denotes g l hx).2.2 hg⟩

theorem category_iff (hp : p < sel.schema.pointCount) :
    ((result (build sel.schema) ∅).lexical.category p).value v.value = true ↔ sel.IsTop p :=
  (hlex.denotes_category hp).2.trans Selection.mem_roots

include hc

theorem isBelow_iff (hsub : ∀ l ∈ sel.links, l ∈ sel.schema.linkPairs) (hp : p < sel.schema.pointCount) :
    (result (build sel.schema) ∅).IsBelow v.value p q ↔
      (∃ g, sel.Carries p g ∧ g.polarity.isTrigger = true ∧ sel.schema.successor p = some q) ∨
        ∃ x, (x, p) ∈ sel.links ∧ sel.schema.successor x = some q := by
  rw [IsBelow, parentsOf_eq, if_pos hp]
  exact Dominance.exists_mem_steps_iff hlex hc hsub hp

end Described

theorem lt_of_isBelow (h : (result (build s) ∅).IsBelow a p q) : p < s.pointCount := by
  obtain ⟨l, hl, _⟩ := h
  by_contra hn
  rw [parentsOf_eq, if_neg hn] at hl
  cases hl

section Steps

variable (hf : sel.IsFilled) (hstep : ∀ p < sel.schema.pointCount, ∀ q,
  (result (build sel.schema) ∅).IsBelow a p q ↔ sel.Step p q) (hp : p < sel.schema.pointCount)
include hf hstep hp

theorem transGen_isBelow_iff :
    TransGen ((result (build sel.schema) ∅).IsBelow a) p q ↔ TransGen sel.Step p q := by
  constructor
  · exact TransGen.mono (fun x y h => (hstep x (lt_of_isBelow h) y).1 h) p q
  · intro h
    induction h using TransGen.head_induction_on with
    | single h => exact .single ((hstep _ hp _).2 h)
    | head h _ ih => exact .head ((hstep _ hp _).2 h) (ih (Selection.step_lt hf h))

theorem reflTransGen_isBelow_iff :
    ReflTransGen ((result (build sel.schema) ∅).IsBelow a) p q ↔ ReflTransGen sel.Step p q := by
  rw [reflTransGen_iff_eq_or_transGen, reflTransGen_iff_eq_or_transGen, transGen_isBelow_iff hf hstep hp]

end Steps

theorem formsTree_of_isTree (hf : sel.IsFilled) (ht : sel.IsTree)
    (henc : (result (build sel.schema) ∅).Outlines v sel)
    (hstep : ∀ p < sel.schema.pointCount, ∀ q, (result (build sel.schema) ∅).IsBelow v.value p q ↔ sel.Step p q) :
    (result (build sel.schema) ∅).FormsTree sel.schema v.value sel.root := by
  obtain ⟨g, hg, hcat⟩ := ht.hasRoot.isTop_root
  have hactive : ∀ {p}, p < sel.schema.pointCount → ((result (build sel.schema) ∅).IsActive v.value p ↔
      ∃ g, sel.Carries p g) := isActive_iff henc.lexical hf
  refine ⟨hg.1, fun p hp => ?_, fun p hp hact hne => ?_, fun p hp hno => ?_, fun p hp hact => ?_⟩
  · rw [category_iff henc.lexical hp]
    exact ⟨ht.hasRoot.eq_root, fun h => h ▸ ht.hasRoot.isTop_root⟩
  · obtain ⟨k, hk⟩ := (hactive hp).1 hact
    obtain ⟨q, hq⟩ := ht.exists_step hf hk fun hcat => hne (ht.hasRoot.eq_root ⟨k, hk, hcat⟩)
    rw [parentCount_eq_one_iff]
    · exact ⟨q, (hstep p hp q).2 hq, fun q' hq' => ((hstep p hp q').1 hq').unique hq⟩
    · rw [parentsOf_eq, if_pos hp]
      exact Dominance.nodup_steps_upward hf henc.checking hp
  · rw [parentCount_eq_zero_iff]
    intro q hq
    have hs := (hstep p hp q).1 hq
    obtain ⟨⟨k, hk, _⟩, _⟩ := ht.carries_of_step hf hp hs
    rw [hno ((hactive hp).2 ⟨k, hk⟩)] at hs
    exact Selection.not_step_of_isTop ht.hasRoot.isTop_root hs
  · obtain ⟨k, hk⟩ := (hactive hp).1 hact
    rw [reflTransGen_isBelow_iff hf hstep hp, reflTransGen_iff_eq_or_transGen]
    exact (ht.isAcyclic.isConnected hf ht.toIsMatching ht.hasRoot p k hk).imp Eq.symm
      (Selection.dominates_iff hf ht.isAcyclic hp).1

namespace FormsTree

theorem active_of_isBelow (hT : enc.FormsTree s a root) (hp : p < s.pointCount) (h : enc.IsBelow a p q) :
    enc.IsActive a p ∧ p ≠ root := by
  by_contra hn
  have hzero := hT.no_parent p hp fun hact => by
    by_contra hne
    exact hn ⟨hact, hne⟩
  exact parentCount_eq_zero_iff.1 hzero q h

theorem unique (hT : enc.FormsTree s a root) (hp : p < s.pointCount) (h : enc.IsBelow a p q) {q' : PointId}
    (h' : enc.IsBelow a p q') : q = q' := by
  obtain ⟨hact, hne⟩ := hT.active_of_isBelow hp h
  have hone := hT.one_parent p hp hact hne
  rw [parentCount, List.countP_eq_length_filter] at hone
  obtain ⟨x, hx⟩ := List.length_eq_one_iff.1 hone
  have heq : ∀ {q}, enc.IsBelow a p q → q = x.1 := by
    rintro q ⟨l, hl, ht⟩
    have hm : (q, l) ∈ (enc.dominance.parentsOf p).filter (·.2.value a) := List.mem_filter.2 ⟨hl, ht⟩
    rw [hx, List.mem_singleton] at hm
    exact congrArg Prod.fst hm
  exact (heq h).trans (heq h').symm

end FormsTree

section Converse

variable (hf : sel.IsFilled) (hlex : (result (build sel.schema) ∅).lexical.Describes v sel)
  (hc : (result (build sel.schema) ∅).checking.Describes v sel) (hsub : ∀ l ∈ sel.links, l ∈ sel.schema.linkPairs)
  (hT : (result (build sel.schema) ∅).FormsTree sel.schema v.value root)
include hf hlex hc hsub hT

/-- The links of a tree check what stands at a point, also where it does not match. -/
theorem isBelow_iff_step (hp : p < sel.schema.pointCount) :
    (result (build sel.schema) ∅).IsBelow v.value p q ↔ sel.Step p q := by
  have hbelow : ∀ {q}, (result (build sel.schema) ∅).IsBelow v.value p q ↔ _ := isBelow_iff hlex hc hsub hp
  constructor
  · intro h
    obtain ⟨hact, hne⟩ := hT.active_of_isBelow hp h
    obtain ⟨g, hg⟩ := (isActive_iff hlex hf hp).1 hact
    have hcat : g.polarity ≠ .category := fun hcat =>
      hne ((hT.category_iff p hp).1 ((category_iff hlex hp).2 ⟨g, hg, hcat⟩))
    by_cases ht : g.polarity.isTrigger = true
    · obtain ⟨q', _, hs, _⟩ := hf.successor_of_isTrigger hg ht
      rw [hT.unique hp h (hbelow.2 (.inl ⟨g, hg, ht, hs⟩))]
      exact (Selection.step_of_isTrigger hg ht).2 hs
    · rw [Selection.step_iff_of_isTarget hg (Polarity.isTarget_of_ne_category (by simpa using ht) hcat)]
      rcases hbelow.1 h with ⟨g', hg', ht', _⟩ | ⟨x, hx, hs⟩
      · rw [hg.unique hg'] at ht
        exact absurd ht' ht
      · refine ⟨x, Selection.checker_eq_some_of_unique (fun x' hx' => ?_) hx, hs⟩
        obtain ⟨q', hs'⟩ := Schema.exists_successor_of_mem_linkPairs (hsub _ hx')
        have hq := hT.unique hp h (hbelow.2 (.inr ⟨x', hx', hs'⟩))
        exact hf.successor_injective (hf.links_lt x' p hx').1 (hf.links_lt x p hx).1 (hq ▸ hs') hs
  · intro h
    obtain ⟨g, hg, ⟨ht, hs⟩ | ⟨_, x, hx, hs⟩⟩ := Selection.exists_of_step hp h
    · exact hbelow.2 (.inl ⟨g, hg, ht, hs⟩)
    · exact hbelow.2 (.inr ⟨x, Selection.mem_links_of_checker hx, hs⟩)

theorem isAcyclic_of_formsTree : sel.IsAcyclic := by
  have hstep : ∀ p < sel.schema.pointCount, ∀ q, (result (build sel.schema) ∅).IsBelow v.value p q ↔ sel.Step p q :=
    fun p hp q => isBelow_iff_step hf hlex hc hsub hT hp
  intro p h
  have hp := Selection.transGen_lt hf h
  obtain ⟨q, hq, _⟩ := TransGen.head'_iff.1 h
  obtain ⟨hact, _⟩ := hT.active_of_isBelow hp ((hstep p hp q).2 hq)
  have hup := (reflTransGen_isBelow_iff hf hstep hp).1 (hT.reaches_root p hp hact)
  obtain ⟨z, hz, _⟩ := TransGen.head'_iff.1 (transGen_self_of_reflTransGen (fun _ _ _ h h' => h.unique h') h hup)
  exact (hT.active_of_isBelow hT.root_lt ((hstep root hT.root_lt z).2 hz)).2 rfl

end Converse

/-- The first families are the beginning of what describes a derivation. -/
theorem grows_skeleton (henc : ((Assembly.describe s).run []).run ∅ = ((enc, families), f₀)) :
    enc = result (build s) ∅ ∧ (formula (skeleton s) ∅).numVars ≤ f₀.numVars ∧
      ∀ c ∈ (formula (skeleton s) ∅).clauses, c ∈ f₀.clauses := by
  obtain ⟨hr, hform⟩ := Assembly.tracks_describe s [] ∅
  rw [result, henc] at hr
  rw [formula, henc] at hform
  obtain rfl : f₀ = formula (build s) ∅ := hform
  rw [build_eq, formula_bind]
  exact ⟨hr, (adds_complete s _ _ _).grows _⟩

/-- The clauses for items, links, the root and dominance are met only by trees, and the dominance literals then say what
stands above what. Whatever items and links form a tree, there are values for the variables of dominance. -/
theorem formsTree_and_exists_closure (hs : Schema.build lex words bounds = .ok s)
    (henc : ((Assembly.describe s).run []).run ∅ = ((enc, families), f₀)) :
    ((formula (skeleton s) ∅).numVars ≤ f₀.numVars ∧ ∀ c ∈ (formula (skeleton s) ∅).clauses, c ∈ f₀.clauses) ∧
      (∀ a, (formula (skeleton s) ∅).Holds a → ∃ root, enc.FormsTree s a root ∧
        ∀ above below, below < s.pointCount →
          (∀ l, enc.dominance.literal? above below = some l →
            (l.value a = true ↔ TransGen (enc.IsBelow a) below above)) ∧
          (enc.dominance.literal? above below = none → ¬TransGen (enc.IsBelow a) below above)) ∧
      ∀ a root, (formula (Lexical.build s) ∅).Holds a → enc.FormsTree s a root →
        ∃ b, (∀ n < (formula (linked s) ∅).numVars, b n = a n) ∧
          ∀ c ∈ clausesOf (Dominance.build s enc.lexical enc.checking) (formula (linked s) ∅), c.Holds b := by
  obtain ⟨_, _, hb⟩ := Schema.build_eq_ok_iff.1 hs
  obtain ⟨rfl, hgrows⟩ := grows_skeleton henc
  refine ⟨hgrows, fun a ha => ?_, fun a root ha hT => ?_⟩
  · obtain ⟨sel, _, ⟨ho, ht⟩, houtlines⟩ := exists_isTree_of_holds hb ha
    obtain ⟨v, rfl, _, houtlined⟩ := houtlines _ (Nat.le_refl _)
    have hf := ho.isFilled hb
    have hsub := ho.mem_linkPairs
    obtain rfl := ho.schema
    have hstep : ∀ p < sel.schema.pointCount, ∀ q,
        (result (build sel.schema) ∅).IsBelow v.value p q ↔ sel.Step p q := fun p hp q =>
      (isBelow_iff houtlined.lexical houtlined.checking hsub hp).trans (ht.step_iff hf hp).symm
    refine ⟨sel.root, formsTree_of_isTree hf ht houtlined hstep, fun above below hbelow => ⟨fun l hl => ?_, fun hn => ?_⟩⟩
    · rw [transGen_isBelow_iff hf hstep hbelow]
      exact (houtlined.dominance.denotes above below l hbelow hl).2
    · rw [transGen_isBelow_iff hf hstep hbelow]
      exact houtlined.dominance.not_transGen hbelow hn
  -- the closure takes its values from the selection, which is a tree since the literals form one
  · obtain ⟨sel, ho, hdescribed⟩ := exists_isOffered_of_holds hb ha
    obtain ⟨v, rfl, hv, hlex, hc⟩ := hdescribed _ (Nat.le_refl _)
    have hf := ho.isFilled hb
    have hsub := ho.mem_linkPairs
    obtain rfl := ho.schema
    have hparents := Dominance.parents_of_step_iff hf hlex hc fun p hp q =>
      (isBelow_iff_step hf hlex hc hsub hT hp).symm.trans (by rw [IsBelow, parentsOf_eq, if_pos hp])
    exact (exists_clausesOf_iff (Dominance.adds_build _ _ _) hv fun _ hle =>
      Dominance.spec_build_of_parents hf (hlex.mono hle) (hc.mono hle) (hparents.mono hle)).2
        (isAcyclic_of_formsTree hf hlex hc hsub hT)

/-- A noun phrase that moves. Its noun is below the root by way of the verb, and the root below nothing. -/
theorem formsTree_whPhrase : ∃ s enc families f₀ root l,
    Schema.build Grammar.whPhrase ["which", "book", "did", "vanish"] {} = .ok s ∧
      ((Assembly.describe s).run []).run ∅ = ((enc, families), f₀) ∧ ((formula (skeleton s) ∅).Holds fun _ => true) ∧
        enc.FormsTree s (fun _ => true) root ∧
          (enc.dominance.literal? 6 3 = some l ∧ TransGen (enc.IsBelow fun _ => true) 3 6) ∧
          (enc.dominance.literal? 3 6 = none ∧ ¬TransGen (enc.IsBelow fun _ => true) 6 3) ∧
          ∃ b, (∀ n < (formula (linked s) ∅).numVars, b n = true) ∧
            ∀ c ∈ clausesOf (Dominance.build s enc.lexical enc.checking) (formula (linked s) ∅), c.Holds b := by
  have hall : (Schema.build Grammar.whPhrase ["which", "book", "did", "vanish"] {}).toOption.any (fun s =>
      decide (((formula (skeleton s) ∅).Holds fun _ => true) ∧ ((formula (Lexical.build s) ∅).Holds fun _ => true) ∧
        (3 < s.pointCount ∧ 6 < s.pointCount) ∧
        ((((Assembly.describe s).run []).run ∅).1.1.dominance.literal? 6 3).any (·.value fun _ => true) = true ∧
          (((Assembly.describe s).run []).run ∅).1.1.dominance.literal? 3 6 = none)) = true := by
    decide +kernel
  obtain ⟨s, hs, h⟩ := Fallible.exists_of_any hall
  obtain ⟨hholds, hlexical, ⟨hnoun, hroot⟩, hsome, hnone⟩ := of_decide_eq_true h
  obtain ⟨l, hl, hvalue⟩ := (Option.any_eq_true _ _).1 hsome
  obtain ⟨_, hforward, hconverse⟩ := formsTree_and_exists_closure hs rfl
  obtain ⟨root, hT, hdom⟩ := hforward _ hholds
  exact ⟨s, _, _, _, root, l, hs, rfl, hholds, hT, ⟨hl, ((hdom 6 3 hnoun).1 l hl).1 hvalue⟩,
    ⟨hnone, (hdom 3 6 hroot).2 hnone⟩, hconverse _ root hlexical hT⟩

end Encoding

end MinimalistGrammar
