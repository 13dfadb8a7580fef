import MinimalistGrammar.Proofs.Parse.Completeness
import MinimalistGrammar.Proofs.Selection.Numbered

/-!
Shortest move, told by the nodes of a derivation: where a licensee is checked, no other phrase waits with the same one.
The derivations under this policy are those among all derivations in which this is so.
-/

open Relation

namespace MinimalistGrammar

namespace Derivation

variable (d : Derivation)

/-- The check takes place at the node. -/
def ChecksAt (i : NodeId) (c : Check) : Prop := ∃ n, d.nodes[i]? = some n ∧ n.operation.check? = some c

/-- A phrase moves to the node by the check. -/
def MovesAt (i : NodeId) (c : Check) : Prop := ∃ n h m, d.nodes[i]? = some n ∧ n.operation = .move h m c

/-- The phrase of a leaf has been put somewhere inside the node, as it was first merged or at a landing, and it is a
node above to which it moves from there by the licensee. -/
def WaitsAt (i : NodeId) (f : Feature) (l : LeafId) : Prop :=
  ∃ below b above c index, (d.ChecksAt below b ∧ (below = i ∨ IsAbove d.nodes i below)) ∧
    (d.MovesAt above c ∧ IsAbove d.nodes above i) ∧
      b.target = ⟨l, index⟩ ∧ c.target = ⟨l, index + 1⟩ ∧ d.feature? c.target = some f

/-- Where a phrase moves, no other phrase waits with the same licensee. -/
def IsShortest : Prop := ∀ i c f l, d.MovesAt i c → d.feature? c.target = some f → l ≠ c.target.leaf → ¬d.WaitsAt i f l

end Derivation

namespace Selection

variable {sel : Selection} {d : Derivation} {place : SlotId → LeafId} {points : List PointId} {p x y x' y' : PointId}
  {f k f' k' : Feature} {i : NodeId} {c : Check} {slot : SlotId} {base l result base' l' result' : PointId}

theorem attracts_iff (hf : sel.IsFilled) (hm : sel.IsMatching) : sel.Attracts x l base result ↔
    sel.schema.predecessor l = some base ∧ ∃ f k, sel.Projects result x l f k ∧ k.polarity = .licensee := by
  constructor
  · intro h
    obtain ⟨f, k, hx, hl, hc⟩ := hm.carries_of_link hf h.link
    obtain ⟨k', hk', hpol⟩ := mem_landings.1 h.isLanding
    exact ⟨h.base, f, k, ⟨hx, hl, hc, h.link, h.result⟩, hl.unique hk' ▸ hpol⟩
  · rintro ⟨hb, f, k, hp, hk⟩
    exact ⟨hp.link, mem_landings.2 ⟨k, hp.target, hk⟩, hb, hp.successor⟩

theorem exists_projects_base (hf : sel.IsFilled) (hm : sel.IsMatching) (hl : sel.Carries l k)
    (hk : k.polarity = .licensee) : ∃ base result x g h, sel.schema.predecessor l = some base ∧
      sel.Projects result x base g h ∧ sel.schema.slotOf l = sel.schema.slotOf base ∧
        (sel.schema.point l).index = (sel.schema.point base).index + 1 := by
  obtain ⟨base, h, hbase, hb, ht⟩ := hf.predecessor_of_licensee hl hk
  obtain ⟨x, hx⟩ := hm.exists_trigger base h hb ht
  obtain ⟨g, h', hg, hb', hc⟩ := hm.carries_of_link hf hx
  obtain ⟨result, _, hr, _⟩ := hf.successor_of_isTrigger hg (isTrigger_of_checks hc)
  obtain ⟨_, hslot, hindex⟩ := hf.slotOf_successor ((hf.built.predecessor_eq_some hl.1).1 hbase).2
  exact ⟨base, result, x, g, h', hbase, ⟨hg, hb', hc, hx, hr⟩, hslot, hindex⟩

namespace Numbered

variable (hf : sel.IsFilled) (hm : sel.IsMatching) (h : sel.Numbered d place points)
include h

theorem exists_projects_of_checksAt (hc : d.ChecksAt i c) : ∃ p x y f k, points.idxOf p = i ∧ sel.Projects p x y f k ∧
    c = ⟨(sel.featureRef x).rename place, (sel.featureRef y).rename place⟩ := by
  obtain ⟨n, hn, hcheck⟩ := hc
  obtain ⟨p, ⟨_, hp⟩, hnode⟩ := h.exists_point hn
  obtain ⟨x, y, f, k, hpr, rfl⟩ := hnode.exists_check hcheck
  exact ⟨p, x, y, f, k, hp, hpr, rfl⟩

theorem exists_projects_of_movesAt (hc : d.MovesAt i c) : ∃ p x y f k, points.idxOf p = i ∧ sel.Projects p x y f k ∧
    k.polarity = .licensee ∧ c = ⟨(sel.featureRef x).rename place, (sel.featureRef y).rename place⟩ := by
  obtain ⟨n, head, m, hn, hop⟩ := hc
  obtain ⟨p, ⟨_, hp⟩, hnode⟩ := h.exists_point hn
  cases hnode with
  | lexical _ _ => cases hop
  | merge _ _ _ => cases hop
  | headMove _ _ _ => cases hop
  | move hpr hk _ _ _ =>
    cases hop
    exact ⟨p, _, _, _, _, hp, hpr, hk, rfl⟩

include hf hm

theorem checksAt (hp : sel.Projects p x y f k) : d.ChecksAt (points.idxOf p)
    ⟨(sel.featureRef x).rename place, (sel.featureRef y).rename place⟩ := by
  obtain ⟨n, hn, hnode⟩ := h.exists_node (hp.carries hf)
  refine ⟨n, hn, ?_⟩
  cases hnode with
  | lexical hc hnone =>
    have := hp.predecessor hf
    rw [hnone] at this
    cases this
  | merge hp' _ _ =>
    obtain ⟨⟨rfl, rfl⟩, _⟩ := hp.unique hf hm hp'
    rfl
  | headMove hp' _ _ =>
    obtain ⟨⟨rfl, rfl⟩, _⟩ := hp.unique hf hm hp'
    rfl
  | move hp' _ _ _ _ =>
    obtain ⟨⟨rfl, rfl⟩, _⟩ := hp.unique hf hm hp'
    rfl

theorem movesAt (hp : sel.Projects p x y f k) (hk : k.polarity = .licensee) : d.MovesAt (points.idxOf p)
    ⟨(sel.featureRef x).rename place, (sel.featureRef y).rename place⟩ := by
  obtain ⟨n, hn, hnode⟩ := h.exists_node (hp.carries hf)
  cases hnode with
  | lexical hc hnone =>
    have := hp.predecessor hf
    rw [hnone] at this
    cases this
  | merge hp' hk' _ => exact absurd ((hp.unique hf hm hp').2.2 ▸ hk) hk'
  | headMove hp' hk' _ => exact absurd ((hp.unique hf hm hp').2.2 ▸ hk) hk'
  | move hp' _ _ _ _ =>
    obtain ⟨⟨rfl, rfl⟩, _⟩ := hp.unique hf hm hp'
    exact ⟨_, _, _, hn, rfl⟩

theorem inside_iff (hp : sel.HasPhrase p) (hr : sel.Projects result x base f k) :
    (points.idxOf result = points.idxOf p ∨ IsAbove d.nodes (points.idxOf p) (points.idxOf result)) ↔
      TransGen sel.Step base p := by
  constructor
  · rintro (he | habove)
    · exact h.idxOf_injective (hr.carries hf) he ▸ .single (hr.step_target hm)
    · exact .head (hr.step_target hm) ((h.isAbove_iff hf hm hp (hr.carries hf)).1 habove)
  · intro hin
    obtain ⟨q, hstep, hrest⟩ := TransGen.head'_iff.1 hin
    obtain rfl := hstep.unique (hr.step_target hm)
    rcases reflTransGen_iff_eq_or_transGen.1 hrest with rfl | hrest
    · exact .inl rfl
    · exact .inr ((h.isAbove_iff hf hm hp (hr.carries hf)).2 hrest)

/-- What waits at the node of a movement is what the movement passes over. -/
theorem waitsAt_iff (hp : sel.Projects result' x' l' f' k') (hslot : sel.schema.slotOf l' ≠ slot) :
    d.WaitsAt (points.idxOf result') k (place slot) ↔ ∃ x l base result, sel.Attracts x l base result ∧
      (sel.schema.slotOf l = slot ∧ sel.Carries l k) ∧ TransGen sel.Step l' result ∧ TransGen sel.Step base result' := by
  constructor
  · rintro ⟨below, b, above, c, index, ⟨hbelow, hin⟩, ⟨habove, hout⟩, hb, hc, hk⟩
    obtain ⟨r, z, base, g, h', rfl, hr, rfl⟩ := h.exists_projects_of_checksAt hbelow
    obtain ⟨q, x, l, f, k₀, rfl, hq, hpol, rfl⟩ := h.exists_projects_of_movesAt habove
    rw [h.feature?_featureRef hq.target, Option.some.injEq] at hk
    subst hk
    obtain ⟨hbs, hbi⟩ := FeatureRef.mk.inj hb
    obtain ⟨hls, hli⟩ := FeatureRef.mk.inj hc
    have hbs : sel.schema.slotOf base = slot := h.injective hbs
    have hls : sel.schema.slotOf l = slot := h.injective hls
    obtain ⟨base', _, _, _, _, hbase, hr', hs', hi'⟩ := exists_projects_base hf hm hq.target hpol
    -- both are the point of the feature before the landing's
    obtain rfl : base' = base := by
      refine hf.built.point_eq hr'.target.1 hr.target.1 (hs'.symm.trans (hls.trans hbs.symm)) ?_
      have : (sel.schema.point base).index = index := hbi
      have : (sel.schema.point l).index = index + 1 := hli
      omega
    refine ⟨x, l, base', q, (attracts_iff hf hm).2 ⟨hbase, f, k₀, hq, hpol⟩, ⟨hls, hq.target⟩, ?_, ?_⟩
    · exact .head (hp.step_target hm) ((h.isAbove_iff hf hm (hq.carries hf) (hp.carries hf)).1 hout)
    · exact (h.inside_iff hf hm (hp.carries hf) hr).1 hin
  · rintro ⟨x, l, base, result, ha, ⟨rfl, hk⟩, hout, hin⟩
    obtain ⟨hbase, f, k₀, hq, hpol⟩ := (attracts_iff hf hm).1 ha
    obtain ⟨base', r, z, g, h', hbase', hr, hs, hi⟩ := exists_projects_base hf hm hq.target hpol
    obtain rfl : base = base' := Option.some.inj (hbase.symm.trans hbase')
    -- the way up from the landing passes the result of its own check, which is not the one asked for
    have habove : TransGen sel.Step result' result := by
      obtain ⟨q, hstep, hrest⟩ := TransGen.head'_iff.1 hout
      obtain rfl := hstep.unique (hp.step_target hm)
      rcases reflTransGen_iff_eq_or_transGen.1 hrest with rfl | hrest
      · exact absurd (congrArg sel.schema.slotOf (hp.unique hf hm hq).1.2) hslot
      · exact hrest
    refine ⟨_, _, _, _, (sel.schema.point base).index,
      ⟨h.checksAt hf hm hr, (h.inside_iff hf hm (hp.carries hf) hr).2 hin⟩, 
      ⟨h.movesAt hf hm hq hpol, (h.isAbove_iff hf hm (hq.carries hf) (hp.carries hf)).2 habove⟩, ?_, ?_,
      h.feature?_featureRef hk⟩
    · exact congrArg₂ FeatureRef.mk (congrArg place hs.symm) rfl
    · exact congrArg₂ FeatureRef.mk rfl hi

/-- The condition on the nodes of a derivation is the one on the checks of the selection. -/
theorem isShortest_iff : d.IsShortest ↔ sel.MovesShortest := by
  constructor
  · rintro hd x l base result x' l' base' result' ha ha' ⟨⟨hslot, f, _, hl, hl'⟩, hout, hin⟩
    obtain ⟨_, f', k', hp, hk'⟩ := (attracts_iff hf hm).1 ha'
    refine hd _ _ f (place (sel.schema.slotOf l)) (h.movesAt hf hm hp hk') (h.feature?_featureRef hl')
      (fun he => hslot (h.injective he)) ?_
    exact (h.waitsAt_iff hf hm hp (Ne.symm hslot)).2 ⟨x, l, base, result, ha, ⟨rfl, hl⟩, hout, hin⟩
  · intro hs i c f l hmoves hf' hne hwaits
    obtain ⟨result', x', l', f₁, k₁, rfl, hp, hk₁, rfl⟩ := h.exists_projects_of_movesAt hmoves
    rw [h.feature?_featureRef hp.target, Option.some.injEq] at hf'
    subst hf'
    obtain ⟨base', _, _, _, _, hbase', _⟩ := exists_projects_base hf hm hp.target hk₁
    obtain ⟨slot, rfl⟩ : ∃ slot, place slot = l := by
      obtain ⟨_, _, _, _, _, _, ⟨hmoves', _⟩, _, hc, _⟩ := hwaits
      obtain ⟨_, _, y, _, _, _, _, _, rfl⟩ := h.exists_projects_of_movesAt hmoves'
      exact ⟨sel.schema.slotOf y, congrArg FeatureRef.leaf hc⟩
    have hslot : sel.schema.slotOf l' ≠ slot := fun he => hne (congrArg place he.symm)
    obtain ⟨x, l, base, result, ha, ⟨rfl, hl⟩, hout, hin⟩ := (h.waitsAt_iff hf hm hp hslot).1 hwaits
    exact hs _ _ _ _ _ _ _ _ ha ((attracts_iff hf hm).2 ⟨hbase', _, _, hp, hk₁⟩)
      ⟨⟨Ne.symm hslot, k₁, hk₁, hl, hp.target⟩, hout, hin⟩

end Numbered

end Selection

namespace Grammar

variable {lex : Lexicon} {options : ParseOptions} {c : Condition} {p p' : Problem} {d : Derivation} {sel : Selection}
  {l l' : LocalityPolicy} {C C' : Selection → Prop}

/-- Some assignment that makes the formula true has the derivation. -/
def Derives (g : Grammar) (c : Condition) (d : Derivation) : Prop :=
  ∃ p a, g.prepare c = .ok p ∧ p.formula.Holds a ∧ p.extract a = .ok d

/-- It is enough to evaluate one assignment. -/
theorem derives_of_any {g : Grammar} {a : Sat.Assignment} (h : (g.prepare c).toOption.any (fun p =>
    decide (p.formula.Holds a) && (p.extract a).toOption.any fun d' => decide (d' = d)) = true) : g.Derives c d := by
  obtain ⟨p, hp, h⟩ := Fallible.exists_of_any h
  obtain ⟨hholds, hd⟩ := Bool.and_eq_true_iff.1 h
  obtain ⟨_, hd, he⟩ := Fallible.exists_of_any hd
  exact ⟨p, a, hp, of_decide_eq_true hholds, of_decide_eq_true he ▸ hd⟩

theorem IsPrepared.exists_under (hp : (Grammar.mk lex options l).IsPrepared c p) (l' : LocalityPolicy) :
    ∃ p', (Grammar.mk lex options l').prepare c = .ok p' ∧ p'.schema = p.schema ∧ p'.requirements = p.requirements :=
  exists_prepare (g := ⟨lex, options, l'⟩) hp.valid hp.isConstrained hp.words hp.schema hp.requirements

theorem Selects.under (h : (Grammar.mk lex options l).Selects c p sel) (hs : p'.schema = p.schema)
    (hr : p'.requirements = p.requirements) : (Grammar.mk lex options l').Selects c p' sel :=
  ⟨hs ▸ h.isOffered, h.isDerivation, h.isSorted, h.isInOrder, hr ▸ h.meets⟩

theorem derives_iff (hl : l.Expresses C) : (Grammar.mk lex options l).Derives c d ↔
    ∃ p sel, (Grammar.mk lex options l).prepare c = .ok p ∧ (Grammar.mk lex options l).Selects c p sel ∧ C sel ∧
      sel.derivation = .ok d := by
  constructor
  · rintro ⟨p, a, hp, ha, hd⟩
    obtain ⟨sel, h, hC, hsel⟩ := exists_selects_of_expresses hl (isPrepared_of_prepare hp) ha
    obtain ⟨d', hder, hd'⟩ := h.extract (isPrepared_of_prepare hp) hsel
    exact ⟨p, sel, hp, h, hC, hder.trans (hd'.symm.trans hd)⟩
  · rintro ⟨p, sel, hp, h, hC, hder⟩
    obtain ⟨a, ha, hsel⟩ := h.exists_holds hC hl (isPrepared_of_prepare hp)
    obtain ⟨d', hder', hd⟩ := h.extract (isPrepared_of_prepare hp) hsel
    exact ⟨p, a, hp, ha, hd.trans (hder'.symm.trans hder)⟩

/-- What a policy says of selections beyond another it says of their derivations, if these can tell. -/
theorem derives_iff_under {D : Prop} (hl : l.Expresses C) (hl' : l'.Expresses C')
    (hD : ∀ {l₁ p sel}, (Grammar.mk lex options l₁).prepare c = .ok p → (Grammar.mk lex options l₁).Selects c p sel →
      sel.derivation = .ok d → (C sel ↔ C' sel ∧ D)) :
    (Grammar.mk lex options l).Derives c d ↔ (Grammar.mk lex options l').Derives c d ∧ D := by
  rw [derives_iff hl, derives_iff hl']
  constructor
  · rintro ⟨p, sel, hp, h, hC, hder⟩
    obtain ⟨p', hp', hs, hr⟩ := (isPrepared_of_prepare hp).exists_under l'
    obtain ⟨hC', hd⟩ := (hD hp h hder).1 hC
    exact ⟨⟨p', sel, hp', h.under hs hr, hC', hder⟩, hd⟩
  · rintro ⟨⟨p, sel, hp, h, hC', hder⟩, hd⟩
    obtain ⟨p', hp', hs, hr⟩ := (isPrepared_of_prepare hp).exists_under l
    exact ⟨p', sel, hp', h.under hs hr, (hD hp h hder).2 ⟨hC', hd⟩, hder⟩

theorem derives_iff_and {D : Prop} (hl : l.Expresses C) (hD : ∀ {l' p sel}, (Grammar.mk lex options l').prepare c = .ok p →
    (Grammar.mk lex options l').Selects c p sel → sel.derivation = .ok d → (D ↔ C sel)) :
    (Grammar.mk lex options l).Derives c d ↔ (Grammar.mk lex options .unconstrained).Derives c d ∧ D :=
  derives_iff_under hl (LocalityPolicy.expresses_of_eq_pure fun _ _ => rfl) fun hp h hder =>
    (hD hp h hder).symm.trans (true_and _).to_iff.symm

/-- The derivations under shortest move are those in which nothing waits with the licensee that is checked. -/
theorem derives_shortestMove_iff (lex : Lexicon) (options : ParseOptions) (c : Condition) (d : Derivation) :
    (Grammar.mk lex options .shortestMove).Derives c d ↔
      (Grammar.mk lex options .unconstrained).Derives c d ∧ d.IsShortest := by
  refine derives_iff_and LocalityPolicy.expresses_shortestMove fun hp h hder => ?_
  have hf := h.isFilled (isPrepared_of_prepare hp)
  obtain ⟨_, _, hn⟩ := h.isDerivation.exists_numbered hf hder
  exact hn.isShortest_iff hf h.isDerivation.toIsMatching

/-- Two verbs that attract both of their arguments, one as soon as each is merged and one when both are. -/
def questions : Lexicon := ⟨[
  ⟨"asks", [⟨"D", .selector, false⟩, ⟨"wh", .licensor, false⟩, ⟨"D", .selector, false⟩, ⟨"wh", .licensor, false⟩,
    ⟨"C", .category, false⟩], some "asks", none, by decide, by decide +kernel⟩,
  ⟨"shows", [⟨"D", .selector, false⟩, ⟨"D", .selector, false⟩, ⟨"wh", .licensor, false⟩, ⟨"wh", .licensor, false⟩,
    ⟨"C", .category, false⟩], some "shows", none, by decide, by decide +kernel⟩,
  ⟨"who", [⟨"D", .selectee, false⟩, ⟨"wh", .licensee, false⟩], some "who", none, by decide, by decide +kernel⟩,
  ⟨"whom", [⟨"D", .selectee, false⟩, ⟨"wh", .licensee, false⟩], some "whom", none, by decide, by decide +kernel⟩],
  by decide, by decide⟩

def twoQuestions : ParseOptions := { bounds := ⟨0, 2, 0⟩ }

/-- Each argument has moved before anything else waits. -/
def movedInTurn : Derivation where
  leaves := [
    ⟨"asks", some "asks", none, [⟨"D", .selector, false⟩, ⟨"wh", .licensor, false⟩, ⟨"D", .selector, false⟩,
      ⟨"wh", .licensor, false⟩, ⟨"C", .category, false⟩], some 2⟩,
    ⟨"who", some "who", none, [⟨"D", .selectee, false⟩, ⟨"wh", .licensee, false⟩], some 1⟩,
    ⟨"whom", some "whom", none, [⟨"D", .selectee, false⟩, ⟨"wh", .licensee, false⟩], some 0⟩]
  nodes := [
    ⟨.move 1 6 ⟨⟨0, 3⟩, ⟨2, 1⟩⟩, 0, 4⟩, ⟨.merge 2 6 ⟨⟨0, 2⟩, ⟨2, 0⟩⟩, 0, 3⟩,
    ⟨.move 3 5 ⟨⟨0, 1⟩, ⟨1, 1⟩⟩, 0, 2⟩, ⟨.merge 4 5 ⟨⟨0, 0⟩, ⟨1, 0⟩⟩, 0, 1⟩,
    ⟨.lexical 0, 0, 0⟩, ⟨.lexical 1, 1, 0⟩, ⟨.lexical 2, 2, 0⟩]

/-- One argument waits where the other moves. -/
def movedTogether : Derivation where
  leaves := [
    ⟨"shows", some "shows", none, [⟨"D", .selector, false⟩, ⟨"D", .selector, false⟩, ⟨"wh", .licensor, false⟩,
      ⟨"wh", .licensor, false⟩, ⟨"C", .category, false⟩], some 2⟩,
    ⟨"whom", some "whom", none, [⟨"D", .selectee, false⟩, ⟨"wh", .licensee, false⟩], some 0⟩,
    ⟨"who", some "who", none, [⟨"D", .selectee, false⟩, ⟨"wh", .licensee, false⟩], some 1⟩]
  nodes := [
    ⟨.move 1 5 ⟨⟨0, 3⟩, ⟨1, 1⟩⟩, 0, 4⟩, ⟨.move 2 6 ⟨⟨0, 2⟩, ⟨2, 1⟩⟩, 0, 3⟩,
    ⟨.merge 3 6 ⟨⟨0, 1⟩, ⟨2, 0⟩⟩, 0, 2⟩, ⟨.merge 4 5 ⟨⟨0, 0⟩, ⟨1, 0⟩⟩, 0, 1⟩,
    ⟨.lexical 0, 0, 0⟩, ⟨.lexical 1, 1, 0⟩, ⟨.lexical 2, 2, 0⟩]

theorem not_isShortest_movedTogether : ¬movedTogether.IsShortest := by
  intro h
  have hmoves : movedTogether.MovesAt 1 ⟨⟨0, 2⟩, ⟨2, 1⟩⟩ := ⟨_, 2, 6, rfl, rfl⟩
  have hlater : movedTogether.MovesAt 0 ⟨⟨0, 3⟩, ⟨1, 1⟩⟩ := ⟨_, 1, 5, rfl, rfl⟩
  have hmerged : movedTogether.ChecksAt 3 ⟨⟨0, 0⟩, ⟨1, 0⟩⟩ := ⟨_, rfl, rfl⟩
  have hin : IsAbove movedTogether.nodes 1 3 := .head ⟨_, rfl, .head _⟩ (.single ⟨_, rfl, .head _⟩)
  have hout : IsAbove movedTogether.nodes 0 1 := .single ⟨_, rfl, .head _⟩
  exact h 1 _ ⟨"wh", .licensee, false⟩ 1 hmoves rfl (by decide)
    ⟨3, _, 0, _, 0, ⟨hmerged, .inr hin⟩, ⟨hlater, hout⟩, rfl, rfl, rfl⟩

/-- One derivation is kept by shortest move, and another is lost. -/
theorem derives_shortestMove_questions :
    (Grammar.mk questions twoQuestions .shortestMove).Derives { sentence := some ["whom", "who", "asks"] } movedInTurn ∧
      movedInTurn.IsShortest ∧
    (Grammar.mk questions twoQuestions .unconstrained).Derives { sentence := some ["whom", "who", "shows"] } movedTogether ∧
      ¬(Grammar.mk questions twoQuestions .shortestMove).Derives { sentence := some ["whom", "who", "shows"] }
        movedTogether := by
  have hkept : (Grammar.mk questions twoQuestions .shortestMove).Derives
      { sentence := some ["whom", "who", "asks"] } movedInTurn :=
    derives_of_any (a := (· ∉ [4, 6, 9, 11, 12, 13, 16, 17, 36, 37, 38, 39, 41])) (by decide +kernel)
  have hlost : (Grammar.mk questions twoQuestions .unconstrained).Derives
      { sentence := some ["whom", "who", "shows"] } movedTogether :=
    derives_of_any (a := (· ∉ [5, 6, 8, 11, 16, 18, 34, 35, 36, 37, 39, 40])) (by decide +kernel)
  refine ⟨hkept, ((derives_shortestMove_iff _ _ _ _).1 hkept).2, hlost, fun h => ?_⟩
  exact not_isShortest_movedTogether ((derives_shortestMove_iff _ _ _ _).1 h).2

end Grammar

end MinimalistGrammar
