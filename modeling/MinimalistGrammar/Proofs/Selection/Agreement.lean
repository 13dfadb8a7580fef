import MinimalistGrammar.Proofs.Selection.Spellout
import MinimalistGrammar.Selection.Demand

/-!
Agreement with a phrase. A phrase is checked at its maximal projection when it is merged and at a licensee when it
moves. The words of the phrase are below its maximal projection, and nothing is below a licensee.
-/

open Relation

namespace MinimalistGrammar

namespace Selection

variable {sel : Selection} {p q x y : PointId} {f k : Feature} {slot predicate : SlotId} {argument : List SlotId}

/-- The item of a slot projects up to here. -/
def IsMaximal (sel : Selection) (p : PointId) : Prop := (sel.feature? p).any (·.polarity = .selectee) = true

/-- The maximal projection of the slot dominates the other words of the argument. -/
def HeadsPhrase (sel : Selection) (argument : List SlotId) (slot : SlotId) : Prop :=
  slot ∈ argument ∧ ∃ q ∈ sel.schema.pointsAt slot, sel.IsMaximal q ∧
    ∀ other ∈ argument, other = slot ∨ sel.dominates q (sel.schema.lexicalPoint other) = true

/-- A feature of the predicate checks a feature of the head of a phrase of the argument. -/
def Agrees (sel : Selection) (predicate : SlotId) (argument : List SlotId) : Prop :=
  ∃ l ∈ sel.links, l.1 ∈ sel.schema.pointsAt predicate ∧ sel.HeadsPhrase argument (sel.schema.slotOf l.2)

/-- It checks the head at its maximal projection, or the head is all of the argument. -/
def ChecksPhrase (sel : Selection) (predicate : SlotId) (argument : List SlotId) : Prop :=
  ∃ l ∈ sel.links, l.1 ∈ sel.schema.pointsAt predicate ∧ sel.HeadsPhrase argument (sel.schema.slotOf l.2) ∧
    (sel.IsMaximal l.2 ∨ ∀ other ∈ argument, other = sel.schema.slotOf l.2)

instance : Decidable (sel.IsMaximal p) := inferInstanceAs (Decidable (_ = true))

instance : Decidable (sel.HeadsPhrase argument slot) := inferInstanceAs (Decidable (_ ∧ _))

instance : Decidable (sel.Agrees predicate argument) := inferInstanceAs (Decidable (∃ l ∈ _, _))

theorem isMaximal_iff (hp : p < sel.schema.pointCount) :
    sel.IsMaximal p ↔ ∃ k, sel.Carries p k ∧ k.polarity = .selectee := by
  rw [IsMaximal, Option.any_eq_true]
  exact ⟨fun ⟨k, hk, h⟩ => ⟨k, ⟨hp, hk⟩, of_decide_eq_true h⟩, fun ⟨k, hk, h⟩ => ⟨k, hk.2, decide_eq_true h⟩⟩

theorem spans_iff : sel.spans argument p = true ↔ sel.schema.slotOf p ∈ argument ∧
    ∀ other ∈ argument, other = sel.schema.slotOf p ∨ sel.dominates p (sel.schema.lexicalPoint other) = true := by
  simp [spans]

section Law

variable (hf : sel.IsFilled)
include hf

theorem dominates_licensee (hm : sel.IsMatching) (ha : sel.IsAcyclic) (hy : sel.Carries y k)
    (hk : k.polarity = .licensee) (hq : q < sel.schema.pointCount) : sel.dominates y q = false := by
  rw [Bool.eq_false_iff, ne_eq, dominates_iff hf ha hq]
  exact not_transGen_of_licensee hf hm hy hk hq

/-- A selectee spans the argument when it heads a phrase of it, and a licensee when besides there is no other word. -/
theorem spans_target_iff (hm : sel.IsMatching) (ha : sel.IsAcyclic) (hl : (x, y) ∈ sel.links) :
    sel.spans argument y = true ↔ sel.HeadsPhrase argument (sel.schema.slotOf y) ∧
      (sel.IsMaximal y ∨ ∀ other ∈ argument, other = sel.schema.slotOf y) := by
  obtain ⟨_, k, _, hy, hc⟩ := hm.carries_of_link hf hl
  rw [spans_iff, isMaximal_iff hy.1]
  by_cases hk : k.polarity = .licensee
  · have hlow : ∀ other, sel.dominates y (sel.schema.lexicalPoint other) = false := fun other =>
      dominates_licensee hf hm ha hy hk (hf.lexicalPoint_lt hy.1 other)
    have hmax : ¬∃ k', sel.Carries y k' ∧ k'.polarity = .selectee := by
      rintro ⟨k', hy', hk'⟩
      cases hk.symm.trans ((congrArg Feature.polarity (hy.unique hy')).trans hk')
    simp only [hlow, Bool.false_eq_true, or_false, hmax, false_or]
    refine ⟨fun ⟨hmem, hall⟩ => ⟨⟨hmem, ?_⟩, hall⟩, fun ⟨hhead, hall⟩ => ⟨hhead.1, hall⟩⟩
    obtain ⟨q, g, ⟨hq, hg⟩, hslot⟩ := exists_selectee hf (mem_landings.2 ⟨k, hy, hk⟩)
    exact ⟨q, hf.built.mem_pointsAt.2 ⟨hq.1, hslot⟩, (isMaximal_iff hq.1).2 ⟨g, hq, hg⟩, fun other ho => .inl (hall other ho)⟩
  · have hk : k.polarity = .selectee := Polarity.eq_selectee_of_isTarget (isTarget_of_checks hc) hk
    have hmax : ∃ k', sel.Carries y k' ∧ k'.polarity = .selectee := ⟨k, hy, hk⟩
    refine ⟨fun ⟨hmem, hall⟩ => ⟨⟨hmem, y, hf.built.mem_pointsAt.2 ⟨hy.1, rfl⟩, (isMaximal_iff hy.1).2 hmax, hall⟩,
      .inl hmax⟩, fun ⟨⟨hmem, q, hq, hqmax, hall⟩, _⟩ => ⟨hmem, ?_⟩⟩
    obtain ⟨hlt, hslot⟩ := hf.built.mem_pointsAt.1 hq
    obtain ⟨g, hcq, hg⟩ := (isMaximal_iff hlt).1 hqmax
    obtain rfl := selectee_unique hf hcq hg hy hk hslot
    exact hall

theorem meets_agree_iff (hm : sel.IsMatching) (ha : sel.IsAcyclic) :
    sel.meets (.agree predicate argument) = true ↔ sel.ChecksPhrase predicate argument := by
  simp only [meets, List.any_eq_true, List.mem_filterMap, hm.partner_eq_some]
  constructor
  · rintro ⟨y, ⟨x, hx, hl⟩, hspans⟩
    exact ⟨(x, y), hl, hx, (spans_target_iff hf hm ha hl).1 hspans⟩
  · rintro ⟨⟨x, y⟩, hl, hx, h⟩
    exact ⟨y, ⟨x, hx, hl⟩, (spans_target_iff hf hm ha hl).2 h⟩

end Law

end Selection

end MinimalistGrammar
