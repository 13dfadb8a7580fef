import MinimalistGrammar.Proofs.Encoding.Basic
import MinimalistGrammar.Proofs.Fallible
import MinimalistGrammar.Proofs.Sat.Indication
import MinimalistGrammar.Selection.Demand

/-!
The clauses for a demand say that the selection meets it.
-/

namespace MinimalistGrammar

open MinimalistGrammar.Sat
open MinimalistGrammar.Sat.Builder

variable {v v' : Valuation} {s : Schema} {sel : Selection} {enc : Encoding} {p x y : PointId} {slot : SlotId}
  {argument : List SlotId}

theorem Checking.Describes.indicates_partners {c : Checking} (h : c.Describes v sel)
    (hsub : ∀ l ∈ sel.links, l ∈ sel.schema.linkPairs) (hp : p < sel.schema.pointCount) :
    Indicates v Prod.fst Prod.snd (c.partnersOf p) fun y => (p, y) ∈ sel.links where
  sound _ hy := ⟨_, (h.mem_partnersOf hp hy).2, id⟩
  complete y hy := by
    obtain ⟨l, hl⟩ := h.exists_mem_partnersOf (hsub _ hy)
    exact ⟨_, hl, rfl, (h.mem_partnersOf hp hl).2.congr (iff_true_intro hy)⟩

theorem Checking.Describes.indicates_checkers {c : Checking} (h : c.Describes v sel)
    (hsub : ∀ l ∈ sel.links, l ∈ sel.schema.linkPairs) (hp : p < sel.schema.pointCount) :
    Indicates v Prod.fst Prod.snd (c.checkersOf p) fun x => (x, p) ∈ sel.links where
  sound _ hx := ⟨_, (h.mem_checkersOf hp hx).2, id⟩
  complete x hx := by
    obtain ⟨l, hl⟩ := h.exists_mem_checkersOf (hsub _ hx)
    exact ⟨_, hl, rfl, (h.mem_checkersOf hp hl).2.congr (iff_true_intro hx)⟩

namespace Encoding

section Growth

variable (s enc)

/-- The literal, if any, for one target that may head the argument. -/
def checkArgument (conditions : Literal → List Literal) (argument : List SlotId) (x : PointId × Literal) :
    Builder (List Literal) :=
  match enc.spans s x.1 argument with
  | some spans => do
    let spans ← spans
    return [← Builder.and (conditions x.2 ++ [spans])]
  | none => return []

theorem checksArgument_eq (conditions : Literal → List Literal) (p : PointId) (argument : List SlotId) :
    enc.checksArgument s conditions p argument =
      (enc.checking.partnersOf p).mapM (enc.checkArgument s conditions argument) >>= fun found => pure found.flatten :=
  rfl

theorem adds_selects (p : PointId) : Adds (enc.selects p) := adds_or _

theorem adds_checkArgument (conditions : Literal → List Literal) (argument : List SlotId) (x : PointId × Literal) :
    Adds (enc.checkArgument s conditions argument x) := by
  rw [checkArgument]
  split
  · rename_i b hb
    rw [spans] at hb
    split at hb
    · obtain ⟨lits, _, rfl⟩ := Option.map_eq_some_iff.1 hb
      exact adds_bind (adds_and _) fun _ => adds_bind (adds_and _) fun _ => adds_pure _
    · cases hb
  · exact adds_pure _

theorem adds_checksArgument (conditions : Literal → List Literal) (p : PointId) (argument : List SlotId) :
    Adds (enc.checksArgument s conditions p argument) :=
  adds_bind (adds_mapM (adds_checkArgument _ _ _ _) _) fun _ => adds_pure _

theorem adds_selectsArgument (conditions : List Literal) (p : PointId) (argument : List SlotId) :
    Adds (enc.selectsArgument s conditions p argument) :=
  adds_bind (adds_selects _ _) fun _ => adds_checksArgument _ _ _ _ _

theorem adds_subjectArgument (predicate : SlotId) (argument : List SlotId) (p : PointId) :
    Adds (enc.subjectArgument s predicate argument p) := by
  refine adds_bind (adds_mapM (fun x => adds_ite (adds_pure _) ?_) _) fun _ => adds_pure _
  split
  · exact adds_selectsArgument _ _ _ _ _
  · exact adds_pure _

theorem adds_alternatives (d : Demand) : Adds (enc.alternatives s d) := by
  cases d with
  | root _ => exact adds_pure _
  | category _ _ => exact adds_pure _
  | theta predicate role argument =>
    cases role with
    | subj => exact adds_bind (adds_mapM (adds_subjectArgument _ _ _ _) _) fun _ => adds_pure _
    | obj =>
      rw [alternatives]
      split
      · exact adds_selectsArgument _ _ _ _ _
      · exact adds_pure _
    | iobj =>
      rw [alternatives]
      split
      · exact adds_selectsArgument _ _ _ _ _
      · exact adds_pure _
  | agree _ _ => exact adds_bind (adds_mapM (fun _ => adds_checksArgument _ _ _ _ _) _) fun _ => adds_pure _

theorem adds_require (requirements : List Requirement) : Adds (enc.require s requirements) :=
  adds_forM (fun _ => adds_bind (adds_alternatives _ _ _) fun _ => adds_addClause _) _

end Growth

section Meaning

theorem spec_selects (hf : sel.IsFilled) (henc : enc.Outlines v sel) (hp : p < sel.schema.pointCount) :
    Spec v (enc.selects p) True fun v' l => v'.Denotes l (sel.selects p = true) := by
  refine (Lexical.spec_or_carries hf.mem_candidates (henc.lexical.features p hp) (· = .selector)).post
    fun _ _ _ _ h => h.1.congr ?_
  rw [Selection.selects, Option.any_eq_true]
  exact ⟨fun ⟨f, hc, hs⟩ => ⟨f, hc.2, hs⟩, fun ⟨f, hc, hs⟩ => ⟨f, ⟨hp, hc⟩, hs⟩⟩

theorem spec_spans (argument : List SlotId) (hf : sel.IsFilled) (ha : sel.IsAcyclic) (henc : enc.Outlines v sel)
    (hp : p < sel.schema.pointCount) :
    (∀ b, enc.spans sel.schema p argument = some b →
      Spec v b True fun v' l => v'.Denotes l (sel.spans argument p = true)) ∧
    (enc.spans sel.schema p argument = none → ¬sel.spans argument p = true) := by
  have hlex := hf.lexicalPoint_lt hp
  have hspans : sel.spans argument p = true ↔ sel.schema.slotOf p ∈ argument ∧
      ∀ slot ∈ argument.filter (· ≠ sel.schema.slotOf p), sel.dominates p (sel.schema.lexicalPoint slot) = true := by
    simp only [Selection.spans, Bool.and_eq_true, decide_eq_true_eq, List.all_eq_true, Bool.or_eq_true,
      List.mem_filter, ne_eq]
    exact and_congr_right fun _ => ⟨fun h slot hs => (h slot hs.1).resolve_left hs.2, fun h slot hs =>
      (em _).imp_right fun hne => h slot ⟨hs, hne⟩⟩
  rw [spans]
  split
  · rename_i hmem
    rw [hspans, and_iff_right hmem]
    generalize argument.filter (· ≠ sel.schema.slotOf p) = others
    constructor
    · intro b hb
      obtain ⟨lits, hlits, rfl⟩ := Option.map_eq_some_iff.1 hb
      have hd : List.Forall₂ v.Denotes lits
          (others.map fun slot => sel.dominates p (sel.schema.lexicalPoint slot) = true) := by
        rw [List.forall₂_map_right_iff]
        refine (forall₂_of_mapM_eq_some hlits).flip.imp fun l slot h => ?_
        exact (henc.dominance.denotes _ _ _ (hlex slot) h).congr (Selection.dominates_iff hf ha (hlex slot)).symm
      exact (spec_and hd).post fun _ _ _ _ h => h.congr allOf_map
    · intro hn hall
      -- an item with no literal for it is never dominated
      obtain ⟨slot, hs, hnone⟩ := exists_of_mapM_eq_none (Option.map_eq_none_iff.1 hn)
      obtain ⟨l, hl⟩ := henc.dominance.exists_literal _ _ (hlex slot)
        ((Selection.dominates_iff hf ha (hlex slot)).1 (hall slot hs))
      rw [hl] at hnone
      cases hnone
  · rename_i hmem
    rw [hspans]
    exact ⟨fun _ h => absurd h (by simp), fun _ h => hmem h.1⟩

section Arguments

variable (hf : sel.IsFilled) (hm : sel.IsMatching) (ha : sel.IsAcyclic)
  (hsub : ∀ l ∈ sel.links, l ∈ sel.schema.linkPairs)
include hf ha hsub

theorem spec_checksArgument {K : Prop} {conditions : Literal → List Literal} (henc : enc.Outlines v sel)
    (hp : p < sel.schema.pointCount) (hcond : ∀ v' l Q, v ≤ v' → v'.Denotes l Q →
      ∃ ps, List.Forall₂ v'.Denotes (conditions l) ps ∧ (AllOf ps ↔ K ∧ Q)) :
    Spec v (enc.checksArgument sel.schema conditions p argument) True fun v' ls =>
      Expresses v' ls (K ∧ ∃ y, (p, y) ∈ sel.links ∧ sel.spans argument y = true) := by
  have hpart := henc.checking.indicates_partners hsub hp
  rw [checksArgument_eq]
  refine (spec_flatten (C := fun x => x.2.value v.value = true ∧ K ∧ sel.spans argument x.1 = true)
    (adds_checkArgument _ _ _ _) fun x hx v' hle => ?_).post fun v' ls hle _ h => h.congr ?_
  · have hlt := (Schema.mem_linkPairs.1 (henc.checking.mem_partnersOf hp hx).1).1.2
    obtain ⟨hsome, hnone⟩ := spec_spans argument hf ha (henc.mono hle) hlt
    have hlink := (hpart.denotes hx).1.mono hle
    rw [checkArgument]
    split
    · rename_i b hb
      refine (hsome b hb).bind_free (fun _ => adds_bind (adds_and _) fun _ => adds_pure _)
        fun v₂ spans hle₂ _ hspans => ?_
      obtain ⟨ps, hps, hall⟩ := hcond v₂ _ _ (Valuation.le_trans hle hle₂) (hlink.mono hle₂)
      refine (spec_and (Valuation.forall₂_denotes_append hps (.cons hspans .nil))).bind_pure fun v₃ l _ _ hl =>
        expresses_singleton (hl.congr ?_)
      rw [allOf_append, hall, AllOf, AllOf, and_true]
      exact ⟨fun ⟨⟨hK, hl⟩, hs⟩ => ⟨hl, hK, hs⟩, fun ⟨hl, hK, hs⟩ => ⟨⟨hK, hl⟩, hs⟩⟩
    · rename_i hb
      exact spec_pure (expresses_nil.congr ⟨False.elim, fun h => hnone hb h.2.2⟩)
  · rw [hpart.exists_and_iff (C := fun y => K ∧ sel.spans argument y = true)]
    exact ⟨fun ⟨y, hy, hK, hs⟩ => ⟨hK, y, hy, hs⟩, fun ⟨hK, y, hy, hs⟩ => ⟨y, hy, hK, hs⟩⟩

include hm

theorem spec_selectsArgument {K : Prop} {conditions : List Literal} {ks : List Prop} (henc : enc.Outlines v sel)
    (hp : p < sel.schema.pointCount) (hcond : List.Forall₂ v.Denotes conditions ks) (hK : AllOf ks ↔ K) :
    Spec v (enc.selectsArgument sel.schema conditions p argument) True fun v' ls =>
      Expresses v' ls (K ∧ sel.selectsArgument argument p = true) := by
  refine (spec_selects hf henc hp).bind_free (fun _ => adds_checksArgument _ _ _ _ _) fun v₁ l hle _ hl => ?_
  refine (spec_checksArgument (K := K ∧ sel.selects p = true) hf ha hsub (henc.mono hle) hp
    fun v₂ m Q hle₂ hm' => ⟨ks ++ [sel.selects p = true, Q], ?_, ?_⟩).post fun v₂ ls _ _ h => h.congr ?_
  · exact Valuation.forall₂_denotes_append (Valuation.forall₂_denotes_mono hcond (Valuation.le_trans hle hle₂))
      (.cons (hl.mono hle₂) (.cons hm' .nil))
  · rw [allOf_append, hK, AllOf, AllOf, AllOf, and_true, and_assoc]
  · rw [Selection.selectsArgument, Bool.and_eq_true, Option.any_eq_true, and_assoc]
    simp only [hm.partner_eq_some]

/-- The point is the first one of another slot than the predicate's and leads to one that selects the argument. -/
def IsSubjectOf (sel : Selection) (predicate : SlotId) (argument : List SlotId) (x : PointId) : Prop :=
  ((sel.schema.point x).isLexical = true ∧ sel.schema.slotOf x ≠ predicate) ∧
    ∃ q, sel.schema.successor x = some q ∧ sel.selectsArgument argument q = true

theorem spec_subjectArgument {predicate : SlotId} (henc : enc.Outlines v sel) (hp : p < sel.schema.pointCount) :
    Spec v (enc.subjectArgument sel.schema predicate argument p) True fun v' ls => Expresses v' ls
      (∃ x, (x, p) ∈ sel.links ∧ IsSubjectOf sel predicate argument x) := by
  have hcheck := henc.checking.indicates_checkers hsub hp
  refine (spec_flatten (C := fun x => x.2.value v.value = true ∧ IsSubjectOf sel predicate argument x.1) (fun x => ?_)
    fun x hx v' hle => ?_).post fun v' ls hle _ h =>
      h.congr (hcheck.exists_and_iff (C := IsSubjectOf sel predicate argument))
  · refine adds_ite (adds_pure _) ?_
    split
    · exact adds_selectsArgument _ _ _ _ _
    · exact adds_pure _
  · have hlink := (hcheck.denotes hx).1.mono hle
    dsimp only
    split
    · rename_i hother
      refine spec_pure (expresses_nil.congr ⟨False.elim, fun h => ?_⟩)
      simp [h.2.1.1, h.2.1.2] at hother
    · rename_i hsubj
      have hsubj : (sel.schema.point x.1).isLexical = true ∧ sel.schema.slotOf x.1 ≠ predicate := by
        simpa using hsubj
      cases hnext : sel.schema.successor x.1 with
      | none =>
        refine spec_pure (expresses_nil.congr ⟨False.elim, fun ⟨_, _, q, hq, _⟩ => ?_⟩)
        rw [hnext] at hq
        cases hq
      | some q =>
        refine (spec_selectsArgument (K := x.2.value v.value = true) hf hm ha hsub (henc.mono hle)
          (hf.slotOf_successor hnext).1 (.cons hlink .nil) (by simp)).post fun _ _ _ _ h => h.congr ?_
        refine and_congr_right fun _ => ⟨fun h => ⟨hsubj, q, hnext, h⟩, fun ⟨_, q', hq', h⟩ => ?_⟩
        rw [hnext, Option.some.injEq] at hq'
        exact hq' ▸ h

end Arguments

section Demands

variable (hf : sel.IsFilled) (hd : sel.IsTree) (hsub : ∀ l ∈ sel.links, l ∈ sel.schema.linkPairs)
include hf

/-- A selector by itself merges the argument. -/
theorem spec_selectsAt (hd : sel.IsTree) (hsub : ∀ l ∈ sel.links, l ∈ sel.schema.linkPairs)
    (henc : enc.Outlines v sel) (o : Option PointId) (ho : ∀ p ∈ o, p < sel.schema.pointCount) :
    Spec v (match o with
      | some p => enc.selectsArgument sel.schema [] p argument
      | none => pure []) True fun v' ls => Expresses v' ls (o.any (sel.selectsArgument argument) = true) := by
  cases o with
  | none => exact spec_pure (expresses_nil.congr (by simp))
  | some p =>
    exact (spec_selectsArgument (K := True) hf hd.toIsMatching hd.isAcyclic hsub henc (ho p rfl) .nil Iff.rfl).post
      fun _ _ _ _ h => h.congr (by simp)

theorem expresses_root (hd : sel.IsTree) (henc : enc.Outlines v sel) (category : String) :
    Expresses v (sel.schema.pointIds.filterMap fun p => enc.lexical.feature? p ⟨category, .category, false⟩)
      (sel.meets (.root category) = true) := by
  have hmem : ∀ {l}, l ∈ (sel.schema.pointIds.filterMap fun p => enc.lexical.feature? p ⟨category, .category, false⟩) →
      ∃ p, v.Denotes l (sel.Carries p ⟨category, .category, false⟩) := by
    intro l hl
    obtain ⟨p, hp, hlookup⟩ := List.mem_filterMap.1 hl
    exact ⟨p, (henc.lexical.features p (Schema.mem_pointIds.1 hp)).denotes _ _ (mem_of_lookup hlookup)⟩
  refine ⟨fun l hl => (hmem hl).elim fun _ h => h.1, ?_⟩
  rw [Selection.meets, Option.any_eq_true]
  constructor
  · rintro ⟨l, hl, ht⟩
    obtain ⟨p, hd'⟩ := hmem hl
    have hc := hd'.2.1 ht
    rw [← hd.hasRoot.eq_root ⟨_, hc, rfl⟩]
    exact ⟨_, hc.2, by simp⟩
  · rintro ⟨f, hfeat, hf'⟩
    obtain ⟨g, hg, _⟩ := hd.hasRoot.isTop_root
    have hc : sel.Carries sel.root f := ⟨hg.1, hfeat⟩
    have hf : f = ⟨category, .category, false⟩ := by
      have hmoves : f.movesHead = false := by
        by_contra hmv
        have hsel := (hf.index_eq_zero_of_movesHead hc (by simpa using hmv)).2
        simp [hsel] at hf'
      cases f
      simp_all
    subst hf
    have hp := Schema.mem_pointIds.2 hc.1
    have hlists := henc.lexical.features _ hc.1
    obtain ⟨l, hl⟩ := exists_lookup ((hlists.mem_keys _).2 (Lexical.mayCarry_of_carries hf.mem_candidates hc))
    exact ⟨l, List.mem_filterMap.2 ⟨_, hp, hl⟩, (hlists.denotes _ _ (mem_of_lookup hl)).2.2 hc⟩

theorem expresses_category (henc : enc.Outlines v sel) (slot : SlotId) (category : String) :
    Expresses v (((sel.schema.candidates slot).zip (enc.lexical.choicesAt slot)).filterMap fun (candidate, choice) =>
      if candidate.2.category = category then some choice.2 else none)
      (sel.meets (.category slot category) = true) := by
  have chosen : ∀ {candidates : List (ItemId × Item)} {choices : List (ItemId × Literal)}, Chooses v candidates (sel.item? slot) choices →
      Expresses v ((candidates.zip choices).filterMap fun x => if x.1.2.category = category then some x.2.2 else none)
        (∃ c ∈ candidates, c.2.category = category ∧ sel.item? slot = some c.2) := by
    intro candidates choices h
    induction h with
    | nil => exact expresses_nil.congr (by simp)
    | @cons c choice _ _ hd _ ih =>
      rw [List.zip_cons_cons, List.filterMap_cons]
      split
      · rename_i hno
        refine ih.congr ?_
        have : c.2.category ≠ category := by
          intro he
          simp [he] at hno
        simp [this]
      · rename_i l hyes
        have hcat : c.2.category = category ∧ choice.2 = l := by simpa using hyes
        refine ⟨List.forall_mem_cons.2 ⟨hcat.2 ▸ hd.2.1, ih.1⟩, ?_⟩
        simp only [List.exists_mem_cons_iff, ih.2, hcat.1, true_and]
        rw [← hcat.2, hd.2.2]
  by_cases hs : slot < sel.schema.slotCount
  · refine (chosen (henc.lexical.choices slot hs)).congr ?_
    rw [Selection.meets, Option.any_eq_true]
    constructor
    · rintro ⟨c, _, hcat, hi⟩
      exact ⟨c.2, hi, by simpa using hcat⟩
    · rintro ⟨item, hi, hcat⟩
      obtain ⟨c, hc, rfl⟩ := List.mem_map.1 (hf.mem_candidates slot item hi)
      exact ⟨c, hc, by simpa using hcat, hi⟩
  · rw [Schema.candidates_of_slotCount_le (Nat.not_lt.1 hs)]
    refine expresses_nil.congr ⟨False.elim, fun h => ?_⟩
    rw [Selection.meets, Option.any_eq_true] at h
    obtain ⟨item, hi, _⟩ := h
    exact hs (hf.item_lt hi)

theorem spec_alternatives (hd : sel.IsTree) (hsub : ∀ l ∈ sel.links, l ∈ sel.schema.linkPairs)
    (henc : enc.Outlines v sel) (d : Demand) :
    Spec v (enc.alternatives sel.schema d) True fun v' ls => Expresses v' ls (sel.meets d = true) := by
  have hm := hd.toIsMatching
  have hat : ∀ {slot i p}, p ∈ sel.schema.pointAt? slot i → p < sel.schema.pointCount := fun h =>
    (hf.built.pointAt?_eq_some.1 h).1
  cases d with
  | root category => exact spec_pure (expresses_root hf hd henc category)
  | category slot category => exact spec_pure (expresses_category hf henc slot category)
  | theta predicate role argument =>
    cases role with
    | subj =>
      refine (spec_flatten (C := fun p => ∃ x, (x, p) ∈ sel.links ∧ IsSubjectOf sel predicate argument x)
        (adds_subjectArgument _ _ _ _) fun p hp v' hle => spec_subjectArgument hf hm hd.isAcyclic hsub (henc.mono hle)
          (hf.built.mem_pointsAt.1 hp).1).post fun _ _ _ _ h => h.congr ?_
      simp only [Selection.meets, Selection.lexicalCheckers, List.any_eq_true, List.mem_filterMap, List.mem_filter,
        hm.checker_eq_some, Bool.and_eq_true, bne_iff_ne, IsSubjectOf]
      constructor
      · rintro ⟨p, hp, x, hx, hsubj, q, hs, hq⟩
        exact ⟨q, ⟨x, ⟨⟨p, hp, hx⟩, hsubj⟩, hs⟩, hq⟩
      · rintro ⟨q, ⟨x, ⟨⟨p, hp, hx⟩, hsubj⟩, hs⟩, hq⟩
        exact ⟨p, hp, x, hx, hsubj, q, hs, hq⟩
    | obj => exact spec_selectsAt hf hd hsub henc _ fun p hp => hat hp
    | iobj => exact spec_selectsAt hf hd hsub henc _ fun p hp => hat hp
  | agree predicate argument =>
    refine (spec_flatten (C := fun p => ∃ y, (p, y) ∈ sel.links ∧ sel.spans argument y = true)
      (adds_checksArgument _ _ _ · _) fun p hp v' hle => ?_).post fun _ _ _ _ h => h.congr ?_
    · exact (spec_checksArgument (K := True) hf hd.isAcyclic hsub (henc.mono hle) (hf.built.mem_pointsAt.1 hp).1
        fun v'' l Q _ hl => ⟨[Q], .cons hl .nil, by simp⟩).post fun _ _ _ _ h => h.congr (by simp)
    · simp only [Selection.meets, List.any_eq_true, List.mem_filterMap, hm.partner_eq_some]
      exact ⟨fun ⟨p, hp, y, hy, hs⟩ => ⟨y, ⟨p, hp, hy⟩, hs⟩, fun ⟨y, ⟨p, hp, hy⟩, hs⟩ => ⟨p, hp, y, hy, hs⟩⟩

/-- The clauses for logical form say that every demand is met. -/
theorem asserts_require_of_isTree (hd : sel.IsTree) (hsub : ∀ l ∈ sel.links, l ∈ sel.schema.linkPairs)
    (henc : enc.Outlines v sel) (requirements : List Requirement) :
    Asserts v (enc.require sel.schema requirements) (∀ r ∈ requirements, sel.meets r.demand = true) :=
  Asserts.forM (fun _ => adds_bind (adds_alternatives _ _ _) fun _ => adds_addClause _) fun r _ _ hle =>
    ((spec_alternatives hf hd hsub (henc.mono hle) r.demand).bind (fun _ => adds_addClause _)
      fun _ _ _ _ h => asserts_clause_of_expresses h).congr (by simp)

theorem asserts_require (hd : sel.IsDerivation) (hsub : ∀ l ∈ sel.links, l ∈ sel.schema.linkPairs)
    (henc : enc.Describes v sel) (requirements : List Requirement) :
    Asserts v (enc.require sel.schema requirements) (∀ r ∈ requirements, sel.meets r.demand = true) :=
  asserts_require_of_isTree hf hd.isTree hsub henc.outlines requirements

end Demands

end Meaning

end Encoding

end MinimalistGrammar
