import MinimalistGrammar.Proofs.Encoding.Alignment
import MinimalistGrammar.Proofs.Selection.Locality

/-!
The clauses of the locality conditions say that the movements of the selection are as the condition wants them.
-/

open Relation

namespace MinimalistGrammar

open MinimalistGrammar.Sat
open MinimalistGrammar.Sat.Builder

variable {v : Valuation} {s : Schema} {sel : Selection} {enc : Encoding} {first second m : Movement}
  {phases : List String} {phase : PointId × Literal}

/-- Some candidates have a licensor and a licensee at the points. -/
def Schema.MayAttract (s : Schema) (x y : PointId) : Prop :=
  (∃ f, s.MayCarry x f ∧ f.polarity = .licensor) ∧ ∃ f, s.MayCarry y f ∧ f.polarity = .licensee

theorem Schema.IsBuilt.exists_predecessor_of_mayCarry {p : PointId} {f : Feature} (hs : s.IsBuilt) (hp : p < s.pointCount)
    (hf : s.MayCarry p f) (hpol : f.polarity = .licensee) : ∃ q, s.predecessor p = some q := by
  obtain ⟨c, _, hfeat⟩ := hf
  rw [← Option.ne_none_iff_exists', ne_eq, hs.predecessor_eq_none hp]
  have := (Item.licensee_iff hfeat).1 hpol
  omega

namespace Movement

variable {lex : Lexical} {c : Checking}

theorem of_mem_all (h : m ∈ all s lex c) : m.landing < s.pointCount ∧ (m.checker, m.link) ∈ c.checkersOf m.landing ∧
    s.predecessor m.landing = some m.base ∧ s.successor m.checker = some m.result := by
  obtain ⟨l, hl, hm⟩ := List.mem_flatMap.1 h
  cases hb : s.predecessor l with
  | none =>
    rw [endingAt, hb] at hm
    cases hm
  | some base =>
    obtain ⟨hx, hr, rfl, rfl, _⟩ := (mem_endingAt hb).1 hm
    exact ⟨(mem_landings.1 hl).1, hx, hb, hr⟩

theorem denotes_link (hc : c.Describes v sel) (h : m ∈ all sel.schema lex c) :
    v.Denotes m.link ((m.checker, m.landing) ∈ sel.links) :=
  (hc.mem_checkersOf (of_mem_all h).1 (of_mem_all h).2.1).2

theorem attracts_of_mem_all (h : m ∈ all sel.schema lex c) (hl : (m.checker, m.landing) ∈ sel.links)
    (hland : m.landing ∈ sel.landings) : sel.Attracts m.checker m.landing m.base m.result :=
  ⟨hl, hland, (of_mem_all h).2.2.1, (of_mem_all h).2.2.2⟩

/-- A check is among the possible movements if there may be a licensor, and a literal for licensees. -/
theorem exists_mem_all_of_link {x l base result : PointId} {f : Feature} (hlex : lex.Describes v sel)
    (hc : c.Describes v sel) (hsub : ∀ l ∈ sel.links, l ∈ sel.schema.linkPairs) (hl : (x, l) ∈ sel.links)
    (hb : sel.schema.predecessor l = some base) (hr : sel.schema.successor x = some result)
    (hfx : sel.schema.MayCarry x f) (hpol : f.polarity = .licensor) (hne : lex.licensee l ≠ .bottom) :
    ∃ m ∈ all sel.schema lex c, (m.checker = x ∧ m.landing = l) ∧ m.base = base ∧ m.result = result := by
  obtain ⟨⟨hx, hl'⟩, _⟩ := Schema.mem_linkPairs.1 (hsub _ hl)
  obtain ⟨k, hk⟩ := hc.exists_mem_checkersOf (hsub _ hl)
  refine ⟨⟨x, l, base, result, k⟩, List.mem_flatMap.2 ⟨l, mem_landings.2 ⟨hl', hne⟩, ?_⟩, ⟨rfl, rfl⟩, rfl, rfl⟩
  exact (mem_endingAt hb).2 ⟨hk, hr, rfl, rfl, f, (hlex.mayCarry_iff hx).2 hfx, hpol⟩

theorem exists_mem_all {x l base result : PointId} (hf : sel.IsFilled) (hm : sel.IsMatching)
    (hlex : lex.Describes v sel) (hc : c.Describes v sel) (hsub : ∀ l ∈ sel.links, l ∈ sel.schema.linkPairs)
    (h : sel.Attracts x l base result) : ∃ m ∈ all sel.schema lex c,
      (m.checker = x ∧ m.landing = l) ∧ m.base = base ∧ m.result = result := by
  obtain ⟨f, g, hfx, hgl, hck⟩ := hm.carries_of_link hf h.link
  obtain ⟨g', hg', hpol⟩ := Selection.mem_landings.1 h.isLanding
  obtain rfl := hgl.unique hg'
  exact exists_mem_all_of_link hlex hc hsub h.link h.base h.result (Lexical.mayCarry_of_carries hf.mem_candidates hfx)
    ((Selection.licensor_iff_of_checks hck).2 hpol) (hlex.licensee_ne_bottom h.isLanding)

theorem mayAttract_of_mem_all (hlex : lex.Describes v sel) (hc : c.Describes v sel) (h : m ∈ all sel.schema lex c) :
    sel.schema.MayAttract m.checker m.landing := by
  obtain ⟨l, hl, hm⟩ := List.mem_flatMap.1 h
  obtain ⟨hlt, hne⟩ := mem_landings.1 hl
  obtain ⟨_, hb⟩ : ∃ base, sel.schema.predecessor l = some base := by
    rw [← Option.ne_none_iff_exists']
    intro hb
    rw [endingAt, hb] at hm
    cases hm
  obtain ⟨hx, _, rfl, _, f, hf, hpol⟩ := (mem_endingAt hb).1 hm
  obtain ⟨⟨hxlt, _⟩, _⟩ := Schema.mem_linkPairs.1 (hc.mem_checkersOf hlt hx).1
  obtain ⟨k, hk, hkpol⟩ := hlex.licensees.mayCarry _ hlt hne
  exact ⟨⟨f, (hlex.mayCarry_iff hxlt).1 hf, hpol⟩, k, hk, of_decide_eq_true hkpol⟩

end Movement

namespace LocalityPolicy

/-- The policy keeps the clauses that are there. -/
def OnlyAdds (l : LocalityPolicy) : Prop := ∀ s enc, Grows (l.constrain s enc)

/-- The policy only adds clauses, and these say that the selection is of a certain kind. -/
structure Expresses (l : LocalityPolicy) (C : Selection → Prop) : Prop where
  onlyAdds : l.OnlyAdds
  asserts : ∀ {v : Valuation} {sel : Selection} {enc : Encoding}, sel.IsFilled → sel.IsDerivation →
    (∀ l ∈ sel.links, l ∈ sel.schema.linkPairs) → enc = result (Encoding.build sel.schema) ∅ → enc.Describes v sel →
      Asserts v (l.constrain sel.schema enc) (C sel)

theorem expresses_of_eq_pure {l : LocalityPolicy} (h : ∀ s enc, l.constrain s enc = pure ()) :
    l.Expresses fun _ => True := by
  refine ⟨fun s enc => ?_, fun {v sel enc} _ _ _ _ _ => ?_⟩
  · rw [h]
    exact (adds_pure _).grows
  · rw [h]
    exact asserts_pure

theorem adds_forbidCrossing (s : Schema) (enc : Encoding) (first second : Movement) :
    Adds (forbidCrossing s enc first second) := by
  rw [forbidCrossing]
  split
  · exact adds_pure _
  · split
    · exact adds_forM (fun _ => adds_forbid _) _
    · exact adds_pure _

theorem adds_leaveFromEdge (s : Schema) (enc : Encoding) (m : Movement) (phase : PointId × Literal) :
    Adds (leaveFromEdge s enc m phase) := by
  rw [leaveFromEdge]
  dsimp only
  split
  · exact adds_pure _
  · split
    · exact adds_addClause _
    · exact adds_pure _

theorem adds_shortestMove (s : Schema) (enc : Encoding) : Adds (shortestMove.constrain s enc) :=
  adds_forM (fun _ => adds_forM (fun _ => adds_forbidCrossing _ _ _ _) _) _

theorem onlyAdds_shortestMove : shortestMove.OnlyAdds := fun s enc => (adds_shortestMove s enc).grows

theorem onlyAdds_phaseBounded (phases : List String) : (phaseBounded phases).OnlyAdds := fun s enc =>
  (adds_bind (adds_shortestMove s enc) fun _ =>
    adds_forM (fun _ => adds_forM (fun _ => adds_leaveFromEdge _ _ _ _) _) _).grows

section Asserting

variable (hf : sel.IsFilled) (hd : sel.IsDerivation) (hsub : ∀ l ∈ sel.links, l ∈ sel.schema.linkPairs)
  (henc : enc.Describes v sel)
include henc

theorem of_mem_sharedLicensees {p q : PointId} {x : Literal × Literal} (hp : p < sel.schema.pointCount)
    (hq : q < sel.schema.pointCount) (hx : x ∈ sharedLicensees enc.lexical p q) :
    ∃ f, f.polarity = .licensee ∧ v.Denotes x.1 (sel.Carries p f) ∧ v.Denotes x.2 (sel.Carries q f) := by
  obtain ⟨⟨f, l⟩, hfl, he⟩ := List.mem_filterMap.1 hx
  dsimp only at he
  split at he
  · rename_i hpol
    obtain ⟨k, hk, rfl⟩ := Option.map_eq_some_iff.1 he
    exact ⟨f, hpol, (henc.lexical.features p hp).denotes f l hfl,
      (henc.lexical.features q hq).denotes f k (mem_of_lookup hk)⟩
  · cases he

theorem exists_mem_sharedLicensees {p q : PointId} {f : Feature} (hf : sel.IsFilled) (hpol : f.polarity = .licensee)
    (hp : sel.Carries p f) (hq : sel.Carries q f) :
    ∃ x ∈ sharedLicensees enc.lexical p q, x.1.value v.value = true ∧ x.2.value v.value = true := by
  have hlp := henc.lexical.features p hp.1
  have hlq := henc.lexical.features q hq.1
  obtain ⟨⟨f, l⟩, hfl, rfl⟩ := List.mem_map.1 ((hlp.mem_keys f).2 (Lexical.mayCarry_of_carries hf.mem_candidates hp))
  obtain ⟨⟨f', k⟩, hfk, rfl⟩ := List.mem_map.1 ((hlq.mem_keys _).2 (Lexical.mayCarry_of_carries hf.mem_candidates hq))
  refine ⟨(l, k), List.mem_filterMap.2 ⟨(f', l), hfl, ?_⟩, (hlp.denotes _ l hfl).2.2 hp, (hlq.denotes _ k hfk).2.2 hq⟩
  dsimp only
  rw [if_pos hpol, Lexical.feature?, lookup_of_mem hlq.nodup hfk]
  rfl

include hf hd hsub

omit hsub in
/-- Two possible movements do not both take place when the first would pass over the phrase of the second. -/
theorem asserts_forbidCrossing (hfirst : first ∈ enc.movements) (hsecond : second ∈ enc.movements) :
    Asserts v (forbidCrossing sel.schema enc first second)
      ((first.checker, first.landing) ∈ sel.links → (second.checker, second.landing) ∈ sel.links →
        ¬sel.Crosses first.landing first.base first.result second.landing second.result) := by
  rw [henc.movements] at hfirst hsecond
  obtain ⟨hl₁, _, hb₁, _⟩ := Movement.of_mem_all hfirst
  obtain ⟨hl₂, _, _, _⟩ := Movement.of_mem_all hsecond
  have hlink₁ := Movement.denotes_link henc.checking hfirst
  have hlink₂ := Movement.denotes_link henc.checking hsecond
  have hbase := ((hf.built.predecessor_eq_some hl₁).1 hb₁).1
  rw [forbidCrossing]
  split
  · rename_i hsame
    refine asserts_pure.congr (iff_of_true trivial fun h₁ h₂ hcross => ?_)
    -- two landings of one item do not cross, and neither do two that share a checker
    rcases Bool.or_eq_true_iff.1 hsame with hslot | hchecker
    · exact hcross.1.1 (of_decide_eq_true hslot)
    · rw [← of_decide_eq_true hchecker] at h₂
      exact hcross.1.1 (congrArg _ (hd.target_unique _ _ _ h₁ h₂))
  · rename_i hdiffer
    split
    · rename_i outer inner houter hinner
      have hout := henc.dominance.denotes _ _ outer hl₂ houter
      have hin := henc.dominance.denotes _ _ inner hbase hinner
      have each : ∀ x ∈ sharedLicensees enc.lexical first.landing second.landing, ∀ v', v ≤ v' →
          Asserts v' (forbid [first.link, second.link, outer, inner, x.1, x.2])
            ¬(((first.checker, first.landing) ∈ sel.links ∧ (second.checker, second.landing) ∈ sel.links) ∧
              (TransGen sel.Step second.landing first.result ∧ TransGen sel.Step first.base second.result) ∧
                x.1.value v.value = true ∧ x.2.value v.value = true) := by
        intro x hx v' hle
        obtain ⟨f, _, hl, hk⟩ := of_mem_sharedLicensees henc hl₁ hl₂ hx
        refine (asserts_forbid (.cons (hlink₁.mono hle) (.cons (hlink₂.mono hle) (.cons (hout.mono hle)
          (.cons (hin.mono hle) (.cons ((Valuation.denotes_self hl.1).mono hle)
            (.cons ((Valuation.denotes_self hk.1).mono hle) .nil))))))).congr ?_
        simp only [AllOf, and_true, and_assoc]
      refine (Asserts.forM (fun _ => adds_forbid _) each).congr ?_
      constructor
      · rintro h h₁ h₂ ⟨⟨_, f, hpol, hc₁, hc₂⟩, ho, hi⟩
        obtain ⟨x, hx, hl, hk⟩ := exists_mem_sharedLicensees henc hf hpol hc₁ hc₂
        exact h x hx ⟨⟨h₁, h₂⟩, ⟨ho, hi⟩, hl, hk⟩
      · rintro h x hx ⟨⟨h₁, h₂⟩, ⟨ho, hi⟩, hl, hk⟩
        obtain ⟨f, hpol, hc₁, hc₂⟩ := of_mem_sharedLicensees henc hl₁ hl₂ hx
        rw [Bool.or_eq_true, decide_eq_true_iff, not_or] at hdiffer
        exact h h₁ h₂ ⟨⟨hdiffer.1, f, hpol, hc₁.2.1 hl, hc₂.2.1 hk⟩, ho, hi⟩
    · rename_i hnone
      refine asserts_pure.congr (iff_of_true trivial fun _ _ hcross => ?_)
      -- what dominates another point has a literal, so where there is none nothing is to be forbidden
      obtain ⟨outer, houter⟩ := henc.dominance.exists_literal _ _ hl₂ hcross.2.1
      obtain ⟨inner, hinner⟩ := henc.dominance.exists_literal _ _ hbase hcross.2.2
      exact hnone outer inner houter hinner

/-- The clauses of shortest move say that no movement passes over a phrase that could move instead. -/
theorem asserts_shortestMove : Asserts v (shortestMove.constrain sel.schema enc) sel.MovesShortest := by
  refine (Asserts.forM (fun _ => adds_forM (fun _ => adds_forbidCrossing _ _ _ _) _) fun first hfirst v' hle =>
    Asserts.forM (fun _ => adds_forbidCrossing _ _ _ _) fun second hsecond v'' hle' =>
      asserts_forbidCrossing hf hd (henc.mono (Valuation.le_trans hle hle')) hfirst hsecond).congr ?_
  constructor
  · intro h x l base result x' l' base' result' ha ha'
    obtain ⟨m, hm, ⟨rfl, rfl⟩, rfl, rfl⟩ := Movement.exists_mem_all hf hd.toIsMatching henc.lexical henc.checking hsub ha
    obtain ⟨m', hm', ⟨rfl, rfl⟩, rfl, rfl⟩ := Movement.exists_mem_all hf hd.toIsMatching henc.lexical henc.checking hsub ha'
    rw [← henc.movements] at hm hm'
    exact h m hm m' hm' ha.link ha'.link
  · intro h m hm m' hm' hl hl' hcross
    rw [henc.movements] at hm hm'
    obtain ⟨⟨_, f, hpol, hc, hc'⟩, _⟩ := id hcross
    exact h _ _ _ _ _ _ _ _ (Movement.attracts_of_mem_all hm hl (Selection.mem_landings.2 ⟨f, hc, hpol⟩))
      (Movement.attracts_of_mem_all hm' hl' (Selection.mem_landings.2 ⟨f, hc', hpol⟩)) hcross

omit hf hd hsub in
theorem of_mem_phasePoints (hp : phase ∈ phasePoints sel.schema enc phases) : phase.1 < sel.schema.pointCount ∧
    ∃ name ∈ phases, v.Denotes phase.2 (sel.Carries phase.1 ⟨name, .selectee, false⟩) := by
  obtain ⟨p, hlt, hm⟩ := List.mem_flatMap.1 hp
  obtain ⟨name, hname, h⟩ := List.mem_filterMap.1 hm
  obtain ⟨l, hl, rfl⟩ := Option.map_eq_some_iff.1 h
  have hlt := Schema.mem_pointIds.1 hlt
  exact ⟨hlt, name, hname, (henc.lexical.features p hlt).denotes _ l (mem_of_lookup hl)⟩

omit hd hsub in
theorem exists_mem_phasePoints {p : PointId} {name : String} (hname : name ∈ phases)
    (hp : sel.Carries p ⟨name, .selectee, false⟩) :
    ∃ l, (p, l) ∈ phasePoints sel.schema enc phases ∧ l.value v.value = true := by
  have hl := henc.lexical.features p hp.1
  obtain ⟨⟨f, l⟩, hfl, he⟩ := List.mem_map.1 ((hl.mem_keys _).2 (Lexical.mayCarry_of_carries hf.mem_candidates hp))
  dsimp only at he
  subst he
  refine ⟨l, List.mem_flatMap.2 ⟨p, Schema.mem_pointIds.2 hp.1, List.mem_filterMap.2 ⟨name, hname, ?_⟩⟩,
    (hl.denotes _ l hfl).2.2 hp⟩
  rw [Lexical.feature?, lookup_of_mem hl.nodup hfl]
  rfl

omit hf hd in
theorem exists_denotes_edge {p base : PointId} (hb : base < sel.schema.pointCount) : ∃ ps,
    List.Forall₂ v.Denotes (((enc.checking.checkersOf base).filter fun (checker, _) =>
      sel.schema.slotOf checker = sel.schema.slotOf p && !(sel.schema.point checker).isLexical).map (·.2)) ps ∧
        (AnyOf ps ↔ sel.IsEdge p base) := by
  refine ⟨_, Valuation.forall₂_denotes_map fun x hx =>
    (henc.checking.mem_checkersOf hb (List.mem_filter.1 hx).1).2, anyOf_map.trans ?_⟩
  constructor
  · rintro ⟨x, hx, hl⟩
    obtain ⟨hslot, hlex⟩ := Bool.and_eq_true_iff.1 (List.mem_filter.1 hx).2
    rw [Bool.not_eq_true'] at hlex
    exact ⟨x.1, hl, of_decide_eq_true hslot, hlex⟩
  · rintro ⟨x, hl, hslot, hlex⟩
    obtain ⟨l, hm⟩ := henc.checking.exists_mem_checkersOf (hsub _ hl)
    exact ⟨(x, l), List.mem_filter.2 ⟨hm, by simp [hslot, hlex]⟩, hl⟩

omit hd in
theorem asserts_leaveFromEdge {P : Prop} (hm : m ∈ enc.movements) (hlt : phase.1 < sel.schema.pointCount)
    (hphase : v.Denotes phase.2 P) : Asserts v (leaveFromEdge sel.schema enc m phase)
      ((m.checker, m.landing) ∈ sel.links → P → sel.schema.slotOf phase.1 ≠ sel.schema.slotOf m.base →
        TransGen sel.Step phase.1 m.result → TransGen sel.Step m.base phase.1 → sel.IsEdge phase.1 m.base) := by
  rw [henc.movements] at hm
  obtain ⟨hl, _, hb, _⟩ := Movement.of_mem_all hm
  have hbase := ((hf.built.predecessor_eq_some hl).1 hb).1
  have hlink := Movement.denotes_link henc.checking hm
  rw [leaveFromEdge]
  dsimp only
  split
  · rename_i hslot
    exact asserts_pure.congr (iff_of_true trivial fun _ _ hne => absurd hslot hne)
  · rename_i hne
    split
    · rename_i outside inside hout hin
      obtain ⟨ps, hedge, hany⟩ := exists_denotes_edge hsub henc (p := phase.1) hbase
      refine (asserts_impliesAny (.cons hlink (.cons hphase (.cons (henc.dominance.denotes _ _ outside hlt hout)
        (.cons (henc.dominance.denotes _ _ inside hbase hin) .nil)))) hedge).congr ?_
      rw [hany]
      simp only [AllOf, and_true]
      exact ⟨fun h h₁ h₂ _ h₃ h₄ => h ⟨h₁, h₂, h₃, h₄⟩, fun h ⟨h₁, h₂, h₃, h₄⟩ => h h₁ h₂ hne h₃ h₄⟩
    · rename_i hnone
      refine asserts_pure.congr (iff_of_true trivial fun _ _ _ h₃ h₄ => ?_)
      obtain ⟨outside, hout⟩ := henc.dominance.exists_literal _ _ hlt h₃
      obtain ⟨inside, hin⟩ := henc.dominance.exists_literal _ _ hbase h₄
      exact (hnone outside inside hout hin).elim

/-- The clauses for phases say that phrases leave them only from their edges. -/
theorem asserts_leaveFromEdges : Asserts v (enc.movements.forM fun m =>
    (phasePoints sel.schema enc phases).forM fun phase => leaveFromEdge sel.schema enc m phase)
      (sel.MovesFromEdge phases) := by
  have each : ∀ m ∈ enc.movements, ∀ v', v ≤ v' → Asserts v' ((phasePoints sel.schema enc phases).forM fun phase =>
      leaveFromEdge sel.schema enc m phase) (∀ phase ∈ phasePoints sel.schema enc phases,
        (m.checker, m.landing) ∈ sel.links → phase.2.value v.value = true →
          sel.schema.slotOf phase.1 ≠ sel.schema.slotOf m.base → TransGen sel.Step phase.1 m.result →
            TransGen sel.Step m.base phase.1 → sel.IsEdge phase.1 m.base) := by
    refine fun m hm v' hle => Asserts.forM (fun _ => adds_leaveFromEdge _ _ _ _) fun phase hp v'' hle' => ?_
    obtain ⟨hlt, _, _, hphase⟩ := of_mem_phasePoints henc hp
    have hle := Valuation.le_trans hle hle'
    exact asserts_leaveFromEdge hf hsub (henc.mono hle) hm hlt ((Valuation.denotes_self hphase.1).mono hle)
  refine (Asserts.forM (fun _ => adds_forM (fun _ => adds_leaveFromEdge _ _ _ _) _) each).congr ?_
  rw [henc.movements]
  constructor
  · rintro h x l base result p ha ⟨⟨name, hname, hc⟩, hne, hout, hin⟩
    obtain ⟨m, hm, ⟨rfl, rfl⟩, rfl, rfl⟩ :=
      Movement.exists_mem_all hf hd.toIsMatching henc.lexical henc.checking hsub ha
    obtain ⟨k, hk, hv⟩ := exists_mem_phasePoints hf henc hname hc
    exact h m hm (p, k) hk ha.link hv hne hout hin
  · intro h m hm phase hp hl hv hne hout hin
    obtain ⟨_, _, hb, hr⟩ := Movement.of_mem_all hm
    obtain ⟨_, name, hname, hphase⟩ := of_mem_phasePoints henc hp
    have hland := Selection.mem_landings_of_leaves hf hd hl hb hr hne hout hin
    exact h _ _ _ _ _ (Movement.attracts_of_mem_all hm hl hland) ⟨⟨name, hname, hphase.2.1 hv⟩, hne, hout, hin⟩

end Asserting

theorem expresses_shortestMove : shortestMove.Expresses Selection.MovesShortest :=
  ⟨onlyAdds_shortestMove, fun hf hd hsub _ henc => asserts_shortestMove hf hd hsub henc⟩

/-- To forbid all movements is to forbid all checks between points where a movement is possible. -/
theorem expresses_frozen :
    frozen.Expresses fun sel => ∀ x y, (x, y) ∈ sel.links → ¬sel.schema.MayAttract x y := by
  refine ⟨fun s enc => (adds_forM (fun _ => adds_forbid _) _).grows, fun {v sel enc} hf hd hsub hbuild henc => ?_⟩
  have each : ∀ m ∈ enc.movements, ∀ v', v ≤ v' → Asserts v' (forbid [m.link]) ((m.checker, m.landing) ∉ sel.links) := by
    intro m hm v' hle
    rw [henc.movements] at hm
    exact (asserts_forbid (.cons ((Movement.denotes_link henc.checking hm).mono hle) .nil)).congr (by simp)
  refine (Asserts.forM (fun _ => adds_forbid _) each).congr ?_
  rw [henc.movements]
  constructor
  · rintro h x y hl ⟨⟨f, hfx, hf'⟩, k, hk, hk'⟩
    obtain ⟨_, _, hx, hy, hc⟩ := hd.toIsMatching.carries_of_link hf hl
    obtain ⟨result, _, hr, _⟩ := hf.successor_of_isTrigger hx (Selection.isTrigger_of_checks hc)
    obtain ⟨base, hb⟩ := hf.built.exists_predecessor_of_mayCarry hy.1 hk hk'
    have hne : enc.lexical.licensee y ≠ .bottom := hbuild ▸ (Encoding.licensee_ne_bottom_iff hf.built hy.1).2 ⟨k, hk, hk'⟩
    obtain ⟨m, hm, ⟨rfl, rfl⟩, _⟩ :=
      Movement.exists_mem_all_of_link henc.lexical henc.checking hsub hl hb hr hfx hf' hne
    exact h m hm hl
  · intro h m hm hl
    exact h _ _ hl (Movement.mayAttract_of_mem_all henc.lexical henc.checking hm)

theorem expresses_phaseBounded (phases : List String) :
    (phaseBounded phases).Expresses fun sel => sel.MovesShortest ∧ sel.MovesFromEdge phases := by
  refine ⟨onlyAdds_phaseBounded phases, fun hf hd hsub _ henc => ?_⟩
  have hphases : ∀ sel : Selection, sel.MovesFromEdge (firstOccurrences (phases.mergeSort (· ≤ ·))) ↔
      sel.MovesFromEdge phases := by
    simp [Selection.MovesFromEdge, Selection.Leaves, mem_firstOccurrences]
  exact Asserts.congr (Asserts.bind (asserts_shortestMove hf hd hsub henc) (fun _ =>
    adds_forM (fun _ => adds_forM (fun _ => adds_leaveFromEdge _ _ _ _) _) _) fun v' _ hle _ =>
      asserts_leaveFromEdges hf hd hsub (henc.mono hle)) (and_congr_right fun _ => hphases _)

end LocalityPolicy

/-- Every locality condition of the configuration says what it is to say. -/
theorem Locality.expresses_policy (locality : Locality) : locality.policy.Expresses fun sel => sel.IsLocal locality := by
  cases locality with
  | shortestMove => exact LocalityPolicy.expresses_shortestMove
  | phaseBounded phases => exact LocalityPolicy.expresses_phaseBounded phases

end MinimalistGrammar
