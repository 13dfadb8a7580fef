import MinimalistGrammar.Locality
import MinimalistGrammar.Proofs.Selection.Embedding

/-!
What the locality conditions say of a selection. They speak of checks and of what stands above what, so they hold of
a selection just as of one that it is placed into.
-/

open Relation

namespace MinimalistGrammar

namespace Selection

/-- The licensor at `x` attracts the phrase that has been at `base` to the landing `l`, and projects to `result`. -/
structure Attracts (sel : Selection) (x l base result : PointId) : Prop where
  link : (x, l) ∈ sel.links
  isLanding : l ∈ sel.landings
  base : sel.schema.predecessor l = some base
  result : sel.schema.successor x = some result

/-- The first movement passes over the phrase of the second while that waits with the same licensee. -/
def Crosses (sel : Selection) (l base result l' result' : PointId) : Prop :=
  (sel.schema.slotOf l ≠ sel.schema.slotOf l' ∧ ∃ f, f.polarity = .licensee ∧ sel.Carries l f ∧ sel.Carries l' f) ∧
    TransGen sel.Step l' result ∧ TransGen sel.Step base result'

/-- No movement passes over another phrase that could move instead. -/
def MovesShortest (sel : Selection) : Prop :=
  ∀ x l base result x' l' base' result', sel.Attracts x l base result → sel.Attracts x' l' base' result' →
    ¬sel.Crosses l base result l' result'

/-- The phase head at `p` dominates the place where a phrase has been and not where it goes. -/
def Leaves (sel : Selection) (phases : List String) (p base result : PointId) : Prop :=
  (∃ phase ∈ phases, sel.Carries p ⟨phase, .selectee, false⟩) ∧ sel.schema.slotOf p ≠ sel.schema.slotOf base ∧
    TransGen sel.Step p result ∧ TransGen sel.Step base p

/-- The place is a specifier of the head that projects to `p`. -/
def IsEdge (sel : Selection) (p base : PointId) : Prop :=
  ∃ x, (x, base) ∈ sel.links ∧ sel.schema.slotOf x = sel.schema.slotOf p ∧ (sel.schema.point x).isLexical = false

/-- A phrase leaves a phase only from its edge. -/
def MovesFromEdge (sel : Selection) (phases : List String) : Prop :=
  ∀ x l base result p, sel.Attracts x l base result → sel.Leaves phases p base result → sel.IsEdge p base

/-- The movements of a selection are as a locality condition says. -/
def IsLocal (sel : Selection) : Locality → Prop
  | .shortestMove => sel.MovesShortest
  | .phaseBounded phases => sel.MovesShortest ∧ sel.MovesFromEdge phases

variable {sel sel' : Selection} {σ : SlotId → SlotId} {φ : PointId → PointId} {x l base result p l' result' : PointId}
  {phases : List String}

theorem Attracts.lt (hf : sel.IsFilled) (h : sel.Attracts x l base result) :
    (x < sel.schema.pointCount ∧ l < sel.schema.pointCount) ∧ base < sel.schema.pointCount ∧
      result < sel.schema.pointCount := by
  obtain ⟨hx, hl⟩ := hf.links_lt _ _ h.link
  exact ⟨⟨hx, hl⟩, ((hf.built.predecessor_eq_some hl).1 h.base).1, (hf.slotOf_successor h.result).1⟩

/-- Only a phrase that moves can leave the phrase of another head by a check. -/
theorem mem_landings_of_leaves (hf : sel.IsFilled) (hd : sel.IsDerivation) (hl : (x, l) ∈ sel.links)
    (hb : sel.schema.predecessor l = some base) (hr : sel.schema.successor x = some result)
    (hne : sel.schema.slotOf p ≠ sel.schema.slotOf base) (hout : TransGen sel.Step p result)
    (hin : TransGen sel.Step base p) : l ∈ sel.landings := by
  by_contra hland
  obtain ⟨_, g, _, hg, hck⟩ := hd.toIsMatching.carries_of_link hf hl
  obtain ⟨hlt, hsucc⟩ := (hf.built.predecessor_eq_some hg.1).1 hb
  obtain ⟨f, hfb, hpol⟩ := hf.carries_of_successor hlt hsucc hg
  have htrigger : f.polarity.isTrigger = true := by
    by_contra ht
    have htarget := Polarity.isTarget_of_ne_category (Bool.eq_false_iff.2 ht) fun hc =>
      hf.not_carries_of_category hfb hc hsucc hg
    exact hland (mem_landings.2 ⟨g, hg, hpol.2 htarget⟩)
  have hstep : sel.Step base l := (step_of_isTrigger hfb htrigger).2 hsucc
  have hup : sel.Step l result := (hd.toIsMatching.step_of_isTarget hg (isTarget_of_checks hck)).2 ⟨x, hl, hr⟩
  obtain ⟨b, hb', hrest⟩ := TransGen.head'_iff.1 hin
  obtain rfl := hstep.unique hb'
  rcases ReflTransGen.cases_head hrest with rfl | ⟨c, hc, hrest⟩
  · exact hne (hf.slotOf_successor hsucc).2.1
  · obtain rfl := hup.unique hc
    exact hd.isAcyclic p (hout.trans_left hrest)

namespace Embeds

variable (h : sel.Embeds sel' σ φ)
include h

variable (hm : sel.IsMatching)
include hm

theorem exists_attracts {x' l' base' result' : PointId} (ha : sel'.Attracts x' l' base' result') :
    ∃ x l base result, sel.Attracts x l base result ∧ (φ x = x' ∧ φ l = l') ∧ φ base = base' ∧ φ result = result' := by
  obtain ⟨x, l, hl, rfl, rfl⟩ := h.exists_link _ _ ha.link
  obtain ⟨f, _, hx, ⟨hlt, _⟩, hc⟩ := hm.carries_of_link h.filled hl
  have hbase := ha.base
  have hresult := ha.result
  rw [h.schema.predecessor_map hlt, Option.map_eq_some_iff] at hbase
  rw [h.successor_map hx (isTrigger_of_checks hc), Option.map_eq_some_iff] at hresult
  obtain ⟨base, hb, rfl⟩ := hbase
  obtain ⟨result, hr, rfl⟩ := hresult
  exact ⟨x, l, base, result, ⟨hl, (h.mem_landings_map hlt).1 ha.isLanding, hb, hr⟩, ⟨rfl, rfl⟩, rfl, rfl⟩

theorem crosses_map (hl : l < sel.schema.pointCount) (hb : base < sel.schema.pointCount)
    (hr : result < sel.schema.pointCount) (hl' : l' < sel.schema.pointCount) (hr' : result' < sel.schema.pointCount) :
    sel'.Crosses (φ l) (φ base) (φ result) (φ l') (φ result') ↔ sel.Crosses l base result l' result' := by
  simp only [Crosses, h.schema.slotOf_map hl, h.schema.slotOf_map hl', h.carries_map hl, h.carries_map hl',
    h.transGen_map hm hl' hr, h.transGen_map hm hb hr', ne_eq, h.schema.injective.eq_iff]

theorem movesShortest (hs : sel.MovesShortest) : sel'.MovesShortest := by
  intro x₁ l₁ b₁ r₁ x₂ l₂ b₂ r₂ h₁ h₂
  obtain ⟨x, l, base, result, ha, ⟨rfl, rfl⟩, rfl, rfl⟩ := h.exists_attracts hm h₁
  obtain ⟨x', l', base', result', ha', ⟨rfl, rfl⟩, rfl, rfl⟩ := h.exists_attracts hm h₂
  obtain ⟨⟨_, hl⟩, hb, hr⟩ := ha.lt h.filled
  obtain ⟨⟨_, hl'⟩, _, hr'⟩ := ha'.lt h.filled
  rw [h.crosses_map hm hl hb hr hl' hr']
  exact hs _ _ _ _ _ _ _ _ ha ha'

theorem movesFromEdge (he : sel.MovesFromEdge phases) : sel'.MovesFromEdge phases := by
  rintro x' l' b' r' p' ha' ⟨⟨phase, hphase, hc⟩, hne, hout, hin⟩
  obtain ⟨x, l, base, result, ha, ⟨rfl, rfl⟩, rfl, rfl⟩ := h.exists_attracts hm ha'
  obtain ⟨p, hp, rfl⟩ := h.exists_point hc
  obtain ⟨_, hb, hr⟩ := ha.lt h.filled
  rw [h.schema.slotOf_map hp.1, h.schema.slotOf_map hb, ne_eq, h.schema.injective.eq_iff] at hne
  rw [h.transGen_map hm hp.1 hr] at hout
  rw [h.transGen_map hm hb hp.1] at hin
  obtain ⟨z, hz, hslot, hlex⟩ := he x l base result p ha ⟨⟨phase, hphase, hp⟩, hne, hout, hin⟩
  have hzlt := (h.filled.links_lt _ _ hz).1
  refine ⟨φ z, h.link_map _ _ hz, ?_, ?_⟩
  · rw [h.schema.slotOf_map hzlt, h.schema.slotOf_map hp.1, hslot]
  · rw [h.schema.isLexical_map hzlt, hlex]

theorem isLocal {locality : Locality} (hl : sel.IsLocal locality) : sel'.IsLocal locality := by
  cases locality with
  | shortestMove => exact h.movesShortest hm hl
  | phaseBounded phases => exact ⟨h.movesShortest hm hl.1, h.movesFromEdge hm hl.2⟩

end Embeds

end Selection

end MinimalistGrammar
