import MinimalistGrammar.Proofs.Parse.ShortestMove

/-!
Phase impenetrability, told by the nodes of a derivation: a phrase that moves out of the largest phrase of a phase head
has been a specifier of that head before. The derivations under this policy are those among the derivations under
shortest move in which this is so.
-/

open Relation

namespace MinimalistGrammar

namespace Derivation

variable (d : Derivation)

/-- The node is the largest phrase of a leaf, and the leaf's selectee is one of the phases. -/
def IsPhase (phases : List String) (i : NodeId) (l : LeafId) : Prop :=
  ∃ n f, (d.nodes[i]? = some n ∧ n.head = l) ∧ d.feature? ⟨l, n.index⟩ = some f ∧ f.polarity = .selectee ∧ f.name ∈ phases

/-- Where a phrase moves from inside a phase of another head to a node outside, it has been checked last by a feature of
that head, and not by the first. -/
def IsPhaseBounded (phases : List String) : Prop :=
  ∀ i c phase l below b, d.MovesAt i c → (d.IsPhase phases phase l ∧ l ≠ c.target.leaf) → IsAbove d.nodes i phase →
    d.ChecksAt below b → (b.target.leaf = c.target.leaf ∧ b.target.index + 1 = c.target.index) →
      (below = phase ∨ IsAbove d.nodes phase below) → b.trigger.leaf = l ∧ b.trigger.index ≠ 0

end Derivation

namespace Selection

variable {sel : Selection} {d : Derivation} {place : SlotId → LeafId} {points : List PointId} {p : PointId} {n : Node}
  {number : PointId → NodeId} {phases : List String} {slot : SlotId}

theorem NodeAt.index_eq (hf : sel.IsFilled) (h : sel.NodeAt place number p n) : n.index = (sel.schema.point p).index := by
  cases h with
  | lexical hc hn => exact ((hf.built.predecessor_eq_none hc.1).1 hn).symm
  | merge _ _ _ => rfl
  | headMove _ _ _ => rfl
  | move _ _ _ _ _ => rfl

namespace Numbered

variable (hf : sel.IsFilled) (h : sel.Numbered d place points)
include hf h

theorem isPhase_iff (hp : sel.HasPhrase p) : d.IsPhase phases (points.idxOf p) (place slot) ↔
    sel.schema.slotOf p = slot ∧ ∃ phase ∈ phases, sel.Carries p ⟨phase, .selectee, false⟩ := by
  obtain ⟨n, hn, hnode⟩ := h.exists_node hp
  have href : ⟨place (sel.schema.slotOf p), n.index⟩ = (sel.featureRef p).rename place := by
    rw [hnode.index_eq hf]
    rfl
  constructor
  · rintro ⟨n', f, ⟨hn', hhead⟩, hfeature, hpol, hname⟩
    obtain rfl := Option.some.inj (hn'.symm.trans hn)
    obtain rfl := h.injective (hnode.head_eq.symm.trans hhead)
    obtain ⟨g, hc, _⟩ := hp
    rw [href, h.feature?_featureRef hc, Option.some.injEq] at hfeature
    subst hfeature
    refine ⟨rfl, g.name, hname, ?_⟩
    -- only selectors attract heads
    have hmoves : g.movesHead = false := by
      rw [Bool.eq_false_iff]
      intro hmoves
      cases hpol.symm.trans (hf.index_eq_zero_of_movesHead hc hmoves).2
    rw [← hpol, ← hmoves]
    exact hc
  · rintro ⟨rfl, phase, hphase, hc⟩
    exact ⟨n, _, ⟨hn, hnode.head_eq⟩, href ▸ h.feature?_featureRef hc, rfl, hphase⟩

/-- The condition on the nodes of a derivation is the one on the checks of the selection. -/
theorem isPhaseBounded_iff (hm : sel.IsMatching) : d.IsPhaseBounded phases ↔ sel.MovesFromEdge phases := by
  have hasPhrase : ∀ {p phase}, sel.Carries p ⟨phase, .selectee, false⟩ → sel.HasPhrase p := fun hc => ⟨_, hc, nofun⟩
  constructor
  · rintro hd x l base result p ha ⟨⟨phase, hphase, hc⟩, hne, hout, hin⟩
    obtain ⟨hbase, f, k, hp, hk⟩ := (attracts_iff hf hm).1 ha
    obtain ⟨base', r, z, g, k', hbase', hr, hslot, hindex⟩ := exists_projects_base hf hm hp.target hk
    obtain rfl := Option.some.inj (hbase.symm.trans hbase')
    have hedge := hd _ _ _ (place (sel.schema.slotOf p)) _ _ (h.movesAt hf hm hp hk)
      ⟨(h.isPhase_iff hf (hasPhrase hc)).2 ⟨rfl, phase, hphase, hc⟩, fun he => hne ((h.injective he).trans hslot)⟩
      ((h.isAbove_iff hf hm (hp.carries hf) (hasPhrase hc)).2 hout) (h.checksAt hf hm hr)
      ⟨congrArg place hslot.symm, hindex.symm⟩ ((h.inside_iff hf hm (hasPhrase hc) hr).2 hin)
    exact ⟨z, hr.link, h.injective hedge.1, decide_eq_false hedge.2⟩
  · rintro hs i c phase l below b hmoves ⟨hphase, hne⟩ hout hchecks ⟨hleaf, hindex⟩ hin
    obtain ⟨result, x, y, f, k, rfl, hp, hk, rfl⟩ := h.exists_projects_of_movesAt hmoves
    obtain ⟨r, z, base, g, k', rfl, hr, rfl⟩ := h.exists_projects_of_checksAt hchecks
    obtain ⟨base', _, _, _, _, hbase, hr', hslot', hindex'⟩ := exists_projects_base hf hm hp.target hk
    have hslot : sel.schema.slotOf base = sel.schema.slotOf y := h.injective hleaf
    obtain rfl : base' = base := by
      refine hf.built.point_eq hr'.target.1 hr.target.1 (hslot'.symm.trans hslot.symm) ?_
      have : (sel.schema.point base).index + 1 = (sel.schema.point y).index := hindex
      omega
    obtain ⟨p, hphrase, rfl, rfl⟩ : ∃ p, sel.HasPhrase p ∧ points.idxOf p = phase ∧ place (sel.schema.slotOf p) = l := by
      obtain ⟨n, _, ⟨hn, rfl⟩, _⟩ := id hphase
      obtain ⟨p, ⟨hp, hi⟩, hnode⟩ := h.exists_point hn
      exact ⟨p, hp, hi, hnode.head_eq.symm⟩
    obtain ⟨_, hcarries⟩ := (h.isPhase_iff hf hphrase).1 hphase
    obtain ⟨z', hz', hsame, hlex⟩ := hs x y base' result p ((attracts_iff hf hm).2 ⟨hbase, f, k, hp, hk⟩)
      ⟨hcarries, fun he => hne (congrArg place (he.trans hslot)),
        (h.isAbove_iff hf hm (hp.carries hf) hphrase).1 hout, (h.inside_iff hf hm hphrase hr).1 hin⟩
    obtain rfl := hm.trigger_unique _ _ _ hr.link hz'
    exact ⟨congrArg place hsame, of_decide_eq_false hlex⟩

end Numbered

end Selection

namespace Grammar

/-- The derivations under phase impenetrability are those under shortest move in which a phrase leaves a phase only from
a specifier of the phase's head. -/
theorem derives_phaseBounded_iff (lex : Lexicon) (options : ParseOptions) (c : Condition) (phases : List String)
    (d : Derivation) : (Grammar.mk lex options (.phaseBounded phases)).Derives c d ↔
      (Grammar.mk lex options .shortestMove).Derives c d ∧ d.IsPhaseBounded phases := by
  refine derives_iff_under (LocalityPolicy.expresses_phaseBounded phases) LocalityPolicy.expresses_shortestMove
    fun hp h hder => and_congr_right fun _ => ?_
  have hf := h.isFilled (isPrepared_of_prepare hp)
  obtain ⟨_, _, hn⟩ := h.isDerivation.exists_numbered hf hder
  exact (hn.isPhaseBounded_iff hf h.isDerivation.toIsMatching).symm

/-- A verb phrase is a phase, and the auxiliary attracts one of the arguments. -/
def auxiliaries : Lexicon := ⟨[
  ⟨"does", [⟨"v", .selector, false⟩, ⟨"focus", .licensor, false⟩, ⟨"C", .category, false⟩], some "does", none, by decide,
    by decide +kernel⟩,
  ⟨"praise", [⟨"D", .selector, false⟩, ⟨"D", .selector, false⟩, ⟨"v", .selectee, false⟩], some "praise", none, by decide,
    by decide +kernel⟩,
  ⟨"Eve", [⟨"D", .selectee, false⟩, ⟨"focus", .licensee, false⟩], some "Eve", none, by decide, by decide +kernel⟩,
  ⟨"Anna", [⟨"D", .selectee, false⟩], some "Anna", none, isFeatureSequence_selectee "D", by decide +kernel⟩],
  by decide, by decide⟩

/-- The specifier of the verb moves. -/
def subjectMoved : Derivation where
  leaves := [
    ⟨"does", some "does", none, [⟨"v", .selector, false⟩, ⟨"focus", .licensor, false⟩, ⟨"C", .category, false⟩], some 1⟩,
    ⟨"praise", some "praise", none, [⟨"D", .selector, false⟩, ⟨"D", .selector, false⟩, ⟨"v", .selectee, false⟩], some 2⟩,
    ⟨"Anna", some "Anna", none, [⟨"D", .selectee, false⟩], some 3⟩,
    ⟨"Eve", some "Eve", none, [⟨"D", .selectee, false⟩, ⟨"focus", .licensee, false⟩], some 0⟩]
  nodes := [
    ⟨.move 1 7 ⟨⟨0, 1⟩, ⟨3, 1⟩⟩, 0, 2⟩, ⟨.merge 2 3 ⟨⟨0, 0⟩, ⟨1, 2⟩⟩, 0, 1⟩, ⟨.lexical 0, 0, 0⟩,
    ⟨.merge 4 7 ⟨⟨1, 1⟩, ⟨3, 0⟩⟩, 1, 2⟩, ⟨.merge 5 6 ⟨⟨1, 0⟩, ⟨2, 0⟩⟩, 1, 1⟩,
    ⟨.lexical 1, 1, 0⟩, ⟨.lexical 2, 2, 0⟩, ⟨.lexical 3, 3, 0⟩]

/-- The complement of the verb moves. -/
def objectMoved : Derivation where
  leaves := [
    ⟨"does", some "does", none, [⟨"v", .selector, false⟩, ⟨"focus", .licensor, false⟩, ⟨"C", .category, false⟩], some 1⟩,
    ⟨"praise", some "praise", none, [⟨"D", .selector, false⟩, ⟨"D", .selector, false⟩, ⟨"v", .selectee, false⟩], some 3⟩,
    ⟨"Eve", some "Eve", none, [⟨"D", .selectee, false⟩, ⟨"focus", .licensee, false⟩], some 0⟩,
    ⟨"Anna", some "Anna", none, [⟨"D", .selectee, false⟩], some 2⟩]
  nodes := [
    ⟨.move 1 6 ⟨⟨0, 1⟩, ⟨2, 1⟩⟩, 0, 2⟩, ⟨.merge 2 3 ⟨⟨0, 0⟩, ⟨1, 2⟩⟩, 0, 1⟩, ⟨.lexical 0, 0, 0⟩,
    ⟨.merge 4 7 ⟨⟨1, 1⟩, ⟨3, 0⟩⟩, 1, 2⟩, ⟨.merge 5 6 ⟨⟨1, 0⟩, ⟨2, 0⟩⟩, 1, 1⟩,
    ⟨.lexical 1, 1, 0⟩, ⟨.lexical 2, 2, 0⟩, ⟨.lexical 3, 3, 0⟩]

theorem not_isPhaseBounded_objectMoved : ¬objectMoved.IsPhaseBounded ["v"] := by
  intro h
  have hmoves : objectMoved.MovesAt 0 ⟨⟨0, 1⟩, ⟨2, 1⟩⟩ := ⟨_, 1, 6, rfl, rfl⟩
  have hmerged : objectMoved.ChecksAt 4 ⟨⟨1, 0⟩, ⟨2, 0⟩⟩ := ⟨_, rfl, rfl⟩
  have hphase : objectMoved.IsPhase ["v"] 3 1 := ⟨_, _, ⟨rfl, rfl⟩, rfl, rfl, .head _⟩
  have hout : IsAbove objectMoved.nodes 0 3 := .head ⟨_, rfl, .head _⟩ (.single ⟨_, rfl, .tail _ (.head _)⟩)
  have hin : IsAbove objectMoved.nodes 3 4 := .single ⟨_, rfl, .head _⟩
  exact (h 0 _ 3 1 4 _ hmoves ⟨hphase, by decide⟩ hout hmerged ⟨rfl, rfl⟩ (.inr hin)).2 rfl

/-- The subject is let out of the verb phrase, and the object is not. -/
theorem derives_phaseBounded_auxiliaries :
    (Grammar.mk auxiliaries { bounds := ⟨0, 1, 0⟩ } (.phaseBounded ["v"])).Derives
      { sentence := some ["Eve", "does", "praise", "Anna"] } subjectMoved ∧ subjectMoved.IsPhaseBounded ["v"] ∧
    (Grammar.mk auxiliaries { bounds := ⟨0, 1, 0⟩ } .shortestMove).Derives
      { sentence := some ["Eve", "does", "Anna", "praise"] } objectMoved ∧
      ¬(Grammar.mk auxiliaries { bounds := ⟨0, 1, 0⟩ } (.phaseBounded ["v"])).Derives
        { sentence := some ["Eve", "does", "Anna", "praise"] } objectMoved := by
  have hkept : (Grammar.mk auxiliaries { bounds := ⟨0, 1, 0⟩ } (.phaseBounded ["v"])).Derives
      { sentence := some ["Eve", "does", "praise", "Anna"] } subjectMoved :=
    derives_of_any (a := (· ∉ [7, 10, 13, 32, 33, 35, 36])) (by decide +kernel)
  have hlost : (Grammar.mk auxiliaries { bounds := ⟨0, 1, 0⟩ } .shortestMove).Derives
      { sentence := some ["Eve", "does", "Anna", "praise"] } objectMoved :=
    derives_of_any (a := (· ∉ [8, 9, 21, 32, 33, 35, 36])) (by decide +kernel)
  refine ⟨hkept, ((derives_phaseBounded_iff _ _ _ _ _).1 hkept).2, hlost, fun h => ?_⟩
  exact not_isPhaseBounded_objectMoved ((derives_phaseBounded_iff _ _ _ _ _).1 h).2

end Grammar

end MinimalistGrammar
