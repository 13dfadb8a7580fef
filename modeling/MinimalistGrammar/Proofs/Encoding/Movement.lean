import MinimalistGrammar.Encoding.Movement
import MinimalistGrammar.Proofs.Encoding.Dominance
import MinimalistGrammar.Proofs.Selection.Derivable

/-!
The clauses for the root and for movement say that there is one category, that every movement goes up, and
that there are no more movements than the bound allows.
-/

open Relation

namespace MinimalistGrammar

open MinimalistGrammar.Sat
open MinimalistGrammar.Sat.Builder

section Counting

variable {α : Type} {l l' : List α} {P : α → Prop}

theorem trueCount_map_eq_length (hl : l.Nodup) (hl' : l'.Nodup) (h : ∀ x, x ∈ l' ↔ x ∈ l ∧ P x) :
    trueCount (l.map P) = l'.length := by
  classical
  rw [trueCount_map, List.countP_eq_length_filter]
  refine ((List.perm_ext_iff_of_nodup (hl.filter _) hl').2 fun x => ?_).length_eq
  rw [List.mem_filter, decide_eq_true_iff, h]

end Counting

namespace Lexical

variable {v : Valuation} {sel : Selection} {lex : Lexical} {p : PointId}

theorem Describes.denotes_licensee (h : lex.Describes v sel) (hp : p < sel.schema.pointCount) :
    v.Denotes (lex.licensee p) (p ∈ sel.landings) :=
  (h.licensees.denotes p hp).congr (by simp only [Selection.mem_landings, decide_eq_true_eq])

theorem Describes.licensee_ne_bottom (h : lex.Describes v sel) (hp : p ∈ sel.landings) : lex.licensee p ≠ .bottom :=
  (h.denotes_licensee (Selection.lt_of_mem_landings hp)).ne_bottom hp

theorem Describes.denotes_category (h : lex.Describes v sel) (hp : p < sel.schema.pointCount) :
    v.Denotes (lex.category p) (p ∈ sel.roots) :=
  (h.categories.denotes p hp).congr (by simp only [Selection.mem_roots, Selection.IsTop, decide_eq_true_eq])

theorem Describes.mayCarry_iff (h : lex.Describes v sel) (hp : p < sel.schema.pointCount) {f : Feature} :
    f ∈ (lex.featuresAt p).map (·.1) ↔ sel.schema.MayCarry p f := (h.features p hp).mem_keys f

theorem forall₂_denotes_filter_bottom {lits : List Literal} {ps : List Prop} (h : List.Forall₂ v.Denotes lits ps) :
    ∃ qs, List.Forall₂ v.Denotes (lits.filter (· != .bottom)) qs ∧ trueCount qs = trueCount ps := by
  induction h with
  | nil => exact ⟨[], .nil, rfl⟩
  | @cons l p lits ps hl _ ih =>
    obtain ⟨qs, hqs, hcount⟩ := ih
    by_cases hb : l = .bottom
    · have hp : ¬p := fun hp => hl.ne_bottom hp hb
      refine ⟨qs, ?_, ?_⟩
      · simpa [hb] using hqs
      · rw [trueCount_cons_of_false hp, hcount]
    · refine ⟨p :: qs, ?_, ?_⟩
      · simpa [hb] using And.intro hl hqs
      · rw [trueCount_cons, trueCount_cons, hcount]

theorem adds_requireRoot (lex : Lexical) : Adds lex.requireRoot := adds_exactlyOne _

theorem asserts_requireRoot (h : lex.Describes v sel) : Asserts v lex.requireRoot sel.HasRoot := by
  have hall : List.Forall₂ v.Denotes lex.categories.toList (sel.schema.pointIds.map (· ∈ sel.roots)) := by
    refine List.forall₂_map_right_iff.2 (List.forall₂_iff_get.2 ⟨?_, fun i h₁ h₂ => ?_⟩)
    · rw [Array.length_toList, h.categories.size, Schema.pointIds, List.length_range]
    · have hp : i < sel.schema.pointCount := by simpa [Schema.pointIds] using h₂
      have := h.denotes_category hp
      rw [Lexical.category, Array.getD_eq_getD_getElem?] at this
      simpa [Schema.pointIds, h.categories.size, hp] using this
  obtain ⟨qs, hqs, hcount⟩ := forall₂_denotes_filter_bottom hall
  refine (asserts_exactlyOne hqs).congr ?_
  rw [hcount, Selection.hasRoot_iff, trueCount_map_eq_length sel.schema.nodup_pointIds Selection.nodup_roots]
  intro p
  rw [iff_and_self, Schema.mem_pointIds, Selection.mem_roots]
  rintro ⟨f, hf, _⟩
  exact hf.1

end Lexical

namespace Movement

variable {v : Valuation} {sel : Selection} {lex : Lexical} {c : Checking} {d : Dominance} {p base : PointId}
  {m : Movement}

theorem mem_endingAt {s : Schema} (hb : s.predecessor p = some base) : m ∈ endingAt s lex c p ↔
    (m.checker, m.link) ∈ c.checkersOf p ∧ s.successor m.checker = some m.result ∧ m.landing = p ∧ m.base = base ∧
      ∃ f, f ∈ (lex.featuresAt m.checker).map (·.1) ∧ f.polarity = .licensor := by
  simp only [endingAt, hb, List.mem_filterMap, List.any_eq_true, decide_eq_true_eq, List.mem_map]
  constructor
  · rintro ⟨⟨x, l⟩, hx, h⟩
    split at h
    · rename_i hf
      obtain ⟨f, hf, hpol⟩ := hf
      obtain ⟨q, hq, rfl⟩ := Option.map_eq_some_iff.1 h
      exact ⟨hx, hq, rfl, rfl, f.1, ⟨f, hf, rfl⟩, hpol⟩
    · cases h
  · rintro ⟨hx, hq, rfl, rfl, _, ⟨f, hf, rfl⟩, hpol⟩
    refine ⟨(m.checker, m.link), hx, ?_⟩
    rw [if_pos ⟨f, hf, hpol⟩, hq]
    rfl

theorem mem_landings {s : Schema} : p ∈ landings s lex ↔ p < s.pointCount ∧ lex.licensee p ≠ .bottom := by
  simp [landings, Schema.mem_pointIds]

theorem nodup_landings {s : Schema} : (landings s lex).Nodup := List.nodup_range.filter _

theorem adds_goUp (m : Movement) : Adds (goUp lex d m) := by
  unfold goUp
  split
  · exact adds_implies _ _
  · exact adds_forbid _

theorem adds_constrainLanding (s : Schema) (p : PointId) : Adds (constrainLanding s lex c d p) :=
  adds_ite (adds_addClause _) (adds_forM adds_goUp _)

theorem adds_constrain (s : Schema) (lex : Lexical) (c : Checking) (d : Dominance) :
    Adds (constrain s lex c d) :=
  adds_bind (adds_forM (adds_constrainLanding s) _) fun _ => adds_atMost _ _

theorem asserts_goUp (hlex : lex.Describes v sel) (hc : c.Describes v sel) (hd : d.Describes v sel)
    (hp : p < sel.schema.pointCount) (hbase : base < sel.schema.pointCount)
    (hb : sel.schema.predecessor p = some base) (hm : m ∈ endingAt sel.schema lex c p) :
    Asserts v (goUp lex d m)
      ((m.checker, p) ∈ sel.links → p ∈ sel.landings → TransGen sel.Step base m.result) := by
  obtain ⟨hx, _, hland, hmb, _⟩ := (mem_endingAt hb).1 hm
  have hlink := (hc.mem_checkersOf hp hx).2
  have hlic := hlex.denotes_licensee hp
  unfold goUp
  rw [hmb, hland]
  split
  · rename_i l hl
    exact asserts_implies_two hlink hlic (hd.denotes _ _ l hbase hl)
  · rename_i hn
    refine (asserts_forbid_two hlink hlic).congr ?_
    have := hd.not_transGen hbase hn
    exact ⟨fun h h₁ h₂ => absurd ⟨h₁, h₂⟩ h, fun h ⟨h₁, h₂⟩ => this (h h₁ h₂)⟩

theorem asserts_constrainLanding (hf : sel.IsFilled) (hm : sel.IsMatching) (ha : sel.IsAcyclic)
    (hlex : lex.Describes v sel) (hc : c.Describes v sel) (hd : d.Describes v sel)
    (hsub : ∀ l ∈ sel.links, l ∈ sel.schema.linkPairs) (hp : p < sel.schema.pointCount) :
    Asserts v (constrainLanding sel.schema lex c d p) (p ∈ sel.landings → sel.isLicensed p = true) := by
  cases hb : sel.schema.predecessor p with
  | none =>
    rw [constrainLanding, hb, Option.isNone_none, if_pos rfl]
    refine (asserts_unit (hlex.denotes_licensee hp).neg).congr ?_
    simp [Selection.isLicensed, hb]
  | some base =>
    rw [constrainLanding, hb, Option.isNone_some, if_neg Bool.false_ne_true]
    have hbase := ((hf.built.predecessor_eq_some hp).1 hb).1
    refine (Asserts.forM adds_goUp fun m hm v' hle =>
      asserts_goUp (hlex.mono hle) (hc.mono hle) (hd.mono hle) hp hbase hb hm).congr ?_
    have hlicensed : ∀ x q, (x, p) ∈ sel.links → sel.schema.successor x = some q →
        (sel.isLicensed p = true ↔ TransGen sel.Step base q) := by
      intro x q hx hq
      rw [Selection.isLicensed, hb, hm.checker_eq_some.2 hx, Option.bind_some, hq]
      exact Selection.dominates_iff hf ha hbase
    constructor
    · intro h hland
      obtain ⟨g, hg, hpol⟩ := Selection.mem_landings.1 hland
      obtain ⟨x, hx⟩ := hm.exists_trigger p g hg (by rw [hpol]; rfl)
      obtain ⟨f, g', hfx, hg', hck⟩ := hm.carries_of_link hf hx
      obtain rfl := hg.unique hg'
      obtain ⟨q, _, hq, _⟩ := hf.successor_of_isTrigger hfx (Selection.isTrigger_of_checks hck)
      obtain ⟨l, hl⟩ := hc.exists_mem_checkersOf (hsub _ hx)
      have hmem : Movement.mk x p base q l ∈ endingAt sel.schema lex c p := by
        refine (mem_endingAt hb).2 ⟨hl, hq, rfl, rfl, f, ?_, (Selection.licensor_iff_of_checks hck).2 hpol⟩
        exact (hlex.mayCarry_iff hfx.1).2 (Lexical.mayCarry_of_carries hf.mem_candidates hfx)
      exact (hlicensed x q hx hq).2 (h _ hmem hx hland)
    · intro h m hm hx hland
      exact (hlicensed _ _ hx ((mem_endingAt hb).1 hm).2.1).1 (h hland)

/-- The clauses for movement say that all movements go up and that there are not too many. -/
theorem asserts_constrain (hf : sel.IsFilled) (hm : sel.IsMatching) (ha : sel.IsAcyclic)
    (hlex : lex.Describes v sel) (hc : c.Describes v sel) (hd : d.Describes v sel)
    (hsub : ∀ l ∈ sel.links, l ∈ sel.schema.linkPairs) :
    Asserts v (constrain sel.schema lex c d) ((∀ p ∈ sel.landings, sel.isLicensed p = true) ∧
      sel.landings.length ≤ sel.schema.bounds.movements) := by
  have hmem : ∀ p ∈ sel.landings, p ∈ landings sel.schema lex := fun p hp =>
    mem_landings.2 ⟨Selection.lt_of_mem_landings hp, hlex.licensee_ne_bottom hp⟩
  have up := Asserts.forM (l := landings sel.schema lex) (adds_constrainLanding sel.schema) fun p hp v' hle =>
    asserts_constrainLanding hf hm ha (hlex.mono hle) (hc.mono hle) (hd.mono hle) hsub (mem_landings.1 hp).1
  refine (Asserts.bind up (fun _ => adds_atMost _ _) fun v' _ hle _ => asserts_atMost
    (Valuation.forall₂_denotes_map fun p hp =>
      (hlex.denotes_licensee (mem_landings.1 hp).1).mono hle) _).congr ?_
  rw [trueCount_map_eq_length nodup_landings Selection.nodup_landings
    fun p => ⟨fun hp => ⟨hmem p hp, hp⟩, fun hp => hp.2⟩]
  exact and_congr_left fun _ => ⟨fun h p hp => h p (hmem p hp) hp, fun h p _ hp => h p hp⟩

end Movement

end MinimalistGrammar
