import MinimalistGrammar.Proofs.Encoding.Transport
import MinimalistGrammar.Proofs.Parse.Extraction
import MinimalistGrammar.Proofs.Selection.Demand

/-!
No derivation within the bounds is lost. Whatever passes the checks of the extraction is selected by an assignment
that makes the whole formula true, once the covert slots are put in order.
-/

namespace MinimalistGrammar

open MinimalistGrammar.Sat
open MinimalistGrammar.Sat.Builder

variable {g : Grammar} {c : Condition} {p : Problem} {a : Assignment} {d : Derivation} {sel : Selection}
  {C : Selection → Prop}

namespace Grammar

theorem exists_selects_of_expresses (hg : g.locality.Expresses C) (hp : g.IsPrepared c p) (ha : p.formula.Holds a) :
    ∃ sel, g.Selects c p sel ∧ C sel ∧ Selection.ofAssignment p.schema p.encoding a = .ok sel := by
  obtain ⟨sel, v, h, ⟨ht, rfl⟩, henc, hlocality⟩ := exists_described hg.onlyAdds hp ha
  have hpolicy := hg.asserts (h.isFilled hp) h.isDerivation h.isOffered.mem_linkPairs
    (h.isOffered.schema ▸ hp.encoding_eq) henc
  rw [h.isOffered.schema] at hpolicy
  obtain ⟨_, hC, _⟩ := hpolicy.1 _ ht hlocality
  exact ⟨sel, h, hC, Encoding.ofAssignment_eq hp.isBuilt h.isOffered henc⟩

/-- Every selection that is as required is that of an assignment that makes the formula true. -/
theorem Selects.exists_holds (h : g.Selects c p sel) (hC : C sel) (hg : g.locality.Expresses C) (hp : g.IsPrepared c p) :
    ∃ a, p.formula.Holds a ∧ Selection.ofAssignment p.schema p.encoding a = .ok sel := by
  have hf := h.isFilled hp
  obtain ⟨v₁, _, hm₁, henc⟩ := (Encoding.offers_build hp.isBuilt).2 ∅ sel Valuation.models_initial
    ⟨h.isOffered, h.isDerivation, h.isSorted⟩
  rw [← hp.encoding_eq] at henc
  obtain ⟨v₂, hle₂, hm₂, _⟩ := (hg.asserts hf h.isDerivation h.isOffered.mem_linkPairs
    (h.isOffered.schema ▸ hp.encoding_eq) henc).2 _ () hm₁ hC
  obtain ⟨v₃, hle₃, hm₃, _⟩ := (Assembly.spec_close hf h.isDerivation h.isOffered.mem_linkPairs (henc.mono hle₂)).2 _ ()
    hm₂ ⟨h.isInOrder, h.meets⟩
  refine ⟨v₃.value, ?_, Encoding.ofAssignment_eq hp.isBuilt h.isOffered (henc.mono (Valuation.le_trans hle₂ hle₃))⟩
  rw [hp.formula, formula_assemble, ← hp.encoding_eq, ← h.isOffered.schema]
  have hholds := hm₃.holds
  rwa [h.isOffered.schema] at hholds ⊢

theorem IsPrepared.aligns (hp : g.IsPrepared c p) : p.encoding.Aligns p.schema := by
  rw [hp.encoding_eq]
  exact Encoding.aligns_build hp.isBuilt

theorem IsPrepared.within_words (hp : g.IsPrepared c p) : ∀ r ∈ p.requirements, r.demand.Within p.schema.words.length := by
  have hr := hp.requirements
  rw [requirementsOf] at hr
  split at hr
  · exact Requirement.within_of_ofLogicalForm (Fallible.mapError_ok_iff.1 hr)
  · rw [← Except.ok.inj hr]
    simp

theorem IsPrepared.isSome_sentence (hp : g.IsPrepared c p) : p.sentence.isSome = g.linearizes c := by
  rw [hp.sentence, linearizes]
  cases g.options.constrainsSentence <;> cases c.sentence <;> rfl

theorem IsPrepared.exists_selection (hp : g.IsPrepared c p) (hd : p.extract a = .ok d) : ∃ sel,
    Selection.ofAssignment p.schema p.encoding a = .ok sel ∧ (sel.IsOffered p.schema ∧ sel.IsDerivation) ∧
      sel.derivation = .ok d ∧ ∀ r ∈ p.requirements, sel.meets r.demand = true := by
  obtain ⟨sel, hsel, hcheck, hder, _, hlf⟩ := Problem.extract_eq_ok.1 hd
  have ho := Encoding.isOffered_of_ofAssignment hp.aligns hsel
  exact ⟨sel, hsel, ⟨ho, (Selection.check_eq_ok_iff (ho.isFilled hp.isBuilt)).1 hcheck⟩, hder,
    Problem.checkLogicalForm_eq_ok.1 hlf⟩

/-- A derivation is selected as required once it is placed elsewhere in order. -/
theorem Selects.of_embeds {p' : Problem} {g' : Grammar} {sel' : Selection} {σ : SlotId → SlotId}
    {φ : PointId → PointId} (hp : g.IsPrepared c p) (hemb : sel.Embeds sel' σ φ) (hs : sel.schema = p.schema)
    (ho' : sel'.IsOffered p'.schema) (hd : sel.IsDerivation) (hd' : sel'.IsDerivation) (hsort : sel'.IsSorted)
    (horder : g'.linearizes c = true → sel.IsInOrder) (hreq : p'.requirements = p.requirements)
    (hmeets : ∀ r ∈ p.requirements, sel.meets r.demand = true) : g'.Selects c p' sel' := by
  refine ⟨ho', hd', hsort, fun hlin => hemb.isInOrder hd hd' (horder hlin), fun r hr => ?_⟩
  rw [hreq] at hr
  rw [hemb.meets_map hd (hs ▸ hp.within_words r hr)]
  exact hmeets r hr

/-- A derivation that is as required can be placed in order, and is then part of an assignment that makes the formula
true. -/
theorem IsPrepared.exists_holds_of_isDerivation (hp : g.IsPrepared c p) (hg : g.locality.Expresses C)
    (ho : sel.IsOffered p.schema) (hder : sel.IsDerivation) (hd : sel.derivation = .ok d)
    (horder : g.linearizes c = true → sel.IsInOrder) (hmeets : ∀ r ∈ p.requirements, sel.meets r.demand = true)
    (hC : ∀ {sel' σ φ}, sel.Embeds sel' σ φ → C sel') :
    ∃ π : Equiv.Perm SlotId, (∀ slot, slot ∉ p.schema.covertSlots → π slot = slot) ∧
      ∃ a' sel', sel.Embeds sel' π (p.schema.place p.schema π) ∧
        Selection.ofAssignment p.schema p.encoding a' = .ok sel' ∧ p.formula.Holds a' ∧ p.extract a' = .ok d := by
  have hs := ho.schema
  have ho' : sel.IsOffered sel.schema := hs ▸ ho
  obtain ⟨π, hfix, hslots, hsort⟩ := Selection.exists_sorted_embed ho' (hs ▸ hp.isBuilt)
  have hemb := Selection.embeds_embed ho' hslots
  have hder' := hemb.isDerivation hder (Nat.le_refl _) (Nat.le_refl _)
  have hselects : g.Selects c p (sel.embed sel.schema π) :=
    Selects.of_embeds hp hemb hs (hs ▸ Selection.isOffered_embed ho' hslots) hder hder' hsort horder rfl hmeets
  obtain ⟨a', hholds, hsel'⟩ := hselects.exists_holds (hC hemb) hg hp
  obtain ⟨d', hd', hextract⟩ := hselects.extract hp hsel'
  rw [hemb.derivation_map hder hder' hd] at hd'
  rw [← hs]
  exact ⟨π, hfix, a', _, hemb, hs ▸ hsel', hholds, Except.ok.inj hd' ▸ hextract⟩

/-- Whatever assignment has a derivation with the words in order, the covert slots can be renumbered so that it is part
of one that makes the whole formula true and has the same derivation. -/
theorem exists_transports_of_extract (hg : ∀ s enc, g.locality.constrain s enc = pure ()) (hp : g.prepare c = .ok p)
    (hd : p.extract a = .ok d)
    (hwords : p.sentence.isSome = true → d.positions = List.range p.schema.words.length) :
    ∃ π : Equiv.Perm SlotId, (∀ slot, slot ∉ p.schema.covertSlots → π slot = slot) ∧
      ∃ a', p.encoding.Transports p.schema π a a' ∧ p.formula.Holds a' ∧ p.extract a' = .ok d := by
  have hp := isPrepared_of_prepare hp
  obtain ⟨sel, hsel, ⟨ho, hder⟩, hd, hmeets⟩ := hp.exists_selection hd
  have horder : g.linearizes c = true → sel.IsInOrder := by
    intro hlin
    rw [Selection.isInOrder_iff_positions (ho.isFilled hp.isBuilt) hder hd, ho.schema]
    exact hwords (hp.isSome_sentence.trans hlin)
  obtain ⟨π, hfix, a', sel', hemb, hsel', hholds, hextract⟩ := hp.exists_holds_of_isDerivation
    (LocalityPolicy.expresses_of_eq_pure hg) ho hder hd horder hmeets fun _ => trivial
  exact ⟨π, hfix, a', Encoding.transports_of_embeds hp.isBuilt hp.aligns hsel hsel' hemb, hholds, hextract⟩

theorem isForm_rains : IsForm (some "rains") := by decide +kernel

/-- A covert head that selects a verb, parsed with two slots for covert items. -/
def clauseAndVerb : Grammar where
  lexicon := ⟨[
    ⟨"C", [⟨"V", .selector, false⟩, ⟨"C", .category, false⟩], none, none, by decide, by decide +kernel⟩,
    ⟨"rains", [⟨"V", .selectee, false⟩], some "rains", none, by decide, by decide +kernel⟩], by decide, by decide⟩
  options := { bounds := { emptyItems := 2 } }
  locality := .unconstrained

/-- The verb by itself. -/
def verbAlone : Condition := { sentence := some ["rains"] }

/-- The covert head stands in the second covert slot, which the order of the slots does not allow. -/
theorem exists_transports_verbAlone : (∀ s enc, clauseAndVerb.locality.constrain s enc = pure ()) ∧
    ∃ p d, clauseAndVerb.prepare verbAlone = .ok p ∧ ¬p.formula.Holds (· ∈ [0, 1, 3, 5]) ∧
      p.extract (· ∈ [0, 1, 3, 5]) = .ok d ∧ d.positions = List.range p.schema.words.length ∧
        ∃ π : Equiv.Perm SlotId, (∀ slot, slot ∉ p.schema.covertSlots → π slot = slot) ∧
          ∃ a', p.encoding.Transports p.schema π (· ∈ [0, 1, 3, 5]) a' ∧ p.formula.Holds a' ∧ p.extract a' = .ok d := by
  have hall : (clauseAndVerb.prepare verbAlone).toOption.any (fun p => !decide (p.formula.Holds (· ∈ [0, 1, 3, 5])) &&
      (p.extract (· ∈ [0, 1, 3, 5])).toOption.any fun d => d.positions = List.range p.schema.words.length) = true := by
    decide +kernel
  cases hp : clauseAndVerb.prepare verbAlone with
  | error e =>
    rw [hp] at hall
    cases hall
  | ok p =>
    rw [hp] at hall
    obtain ⟨hno, hany⟩ := Bool.and_eq_true_iff.1 hall
    rw [Bool.not_eq_true'] at hno
    cases hd : p.extract (· ∈ [0, 1, 3, 5]) with
    | error e =>
      rw [hd] at hany
      cases hany
    | ok d =>
      rw [hd] at hany
      have hwords : d.positions = List.range p.schema.words.length := of_decide_eq_true hany
      exact ⟨fun _ _ => rfl, p, d, rfl, of_decide_eq_false hno, hd, hwords,
        exists_transports_of_extract (fun _ _ => rfl) hp hd fun _ => hwords⟩

end Grammar

end MinimalistGrammar
