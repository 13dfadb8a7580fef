import MinimalistGrammar.Parse.Solution
import MinimalistGrammar.Proofs.Encoding.Locality
import MinimalistGrammar.Proofs.Encoding.Relations
import MinimalistGrammar.Proofs.Encoding.WordOrder
import MinimalistGrammar.Proofs.Parse.Problem
import MinimalistGrammar.Proofs.Selection.Derivation

/-!
The assignments that make a formula true and the derivations that are extracted from them. Whatever a locality
policy adds, an assignment that makes all clauses true has a derivation.
-/

namespace MinimalistGrammar

open MinimalistGrammar.Sat
open MinimalistGrammar.Sat.Builder

variable {g : Grammar} {c : Condition} {p : Problem} {a : Assignment} {d : Derivation} {s : Schema} {sel : Selection}
  {enc : Encoding} {linearize : Bool} {requirements : List Requirement} {v : Valuation}

namespace Assembly

def close (s : Schema) (linearize : Bool) (requirements : List Requirement) (enc : Encoding) : Builder Encoding := do
  if linearize then enc.requireWordOrder s
  if !requirements.isEmpty then enc.require s requirements
  return enc

theorem constrain_eq (s : Schema) (locality : LocalityPolicy) (linearize : Bool) (requirements : List Requirement)
    (enc : Encoding) : constrain s locality linearize requirements enc =
      locality.constrain s enc >>= fun _ => close s linearize requirements enc := rfl

theorem result_close (s : Schema) (linearize : Bool) (requirements : List Requirement) (enc : Encoding) (f : Formula) :
    result (close s linearize requirements enc) f = enc := by
  rw [close]
  split <;> split <;> rfl

theorem adds_close (s : Schema) (linearize : Bool) (requirements : List Requirement) (enc : Encoding) :
    Adds (close s linearize requirements enc) := by
  have last : Adds (do
      if !requirements.isEmpty then enc.require s requirements
      return enc) :=
    adds_ite (adds_bind (Encoding.adds_require _ _ _) fun _ => adds_pure _) (adds_pure _)
  exact adds_ite (adds_bind (Encoding.adds_requireWordOrder _ _) fun _ => last) last

/-- The clauses of the interfaces say that the selection has the right words in order and meets all demands. -/
theorem spec_close (hf : sel.IsFilled) (hd : sel.IsDerivation) (hsub : ∀ l ∈ sel.links, l ∈ sel.schema.linkPairs)
    (henc : enc.Describes v sel) : Spec v (close sel.schema linearize requirements enc)
      ((linearize = true → sel.IsInOrder) ∧ ∀ r ∈ requirements, sel.meets r.demand = true) fun v' enc' =>
        enc' = enc ∧ enc.Describes v' sel := by
  have last : ∀ {v'}, v ≤ v' → Spec v' (do
      if !requirements.isEmpty then enc.require sel.schema requirements
      return enc) (∀ r ∈ requirements, sel.meets r.demand = true) fun v'' enc' => enc' = enc ∧ enc.Describes v'' sel := by
    intro v' hle
    split
    · exact Spec.bind_pure (Encoding.asserts_require hf hd hsub (henc.mono hle) requirements) fun v'' _ hle' _ _ =>
        ⟨rfl, henc.mono (Valuation.le_trans hle hle')⟩
    · rename_i hempty
      have : requirements = [] := by simpa using hempty
      exact (spec_pure ⟨rfl, henc.mono hle⟩).congr (by simp [this])
  rw [close]
  split
  · rename_i hlin
    refine (Asserts.bind (Encoding.asserts_requireWordOrder hf hd hsub henc) (fun _ => ?_) fun v' _ hle _ =>
      last hle).congr (by simp [hlin])
    exact adds_ite (adds_bind (Encoding.adds_require _ _ _) fun _ => adds_pure _) (adds_pure _)
  · rename_i hlin
    exact (last (Valuation.le_refl v)).congr (by simp [hlin])

theorem of_holds_close {f : Formula} (hs : sel.schema = s) (hf : sel.IsFilled) (hd : sel.IsDerivation)
    (hsub : ∀ l ∈ sel.links, l ∈ sel.schema.linkPairs) (henc : enc.Describes v sel) (ht : v.IsTotal)
    (h : (formula (close s linearize requirements enc) f).Holds v.value) :
    (linearize = true → sel.IsInOrder) ∧ ∀ r ∈ requirements, sel.meets r.demand = true := by
  subst hs
  obtain ⟨_, hc, _⟩ := (spec_close hf hd hsub henc).1 f ht h
  exact hc

end Assembly

namespace Problem

theorem extract_eq_ok : p.extract a = .ok d ↔ ∃ sel, Selection.ofAssignment p.schema p.encoding a = .ok sel ∧
    sel.check = .ok () ∧ sel.derivation = .ok d ∧ p.checkSentence d = .ok () ∧
      sel.checkLogicalForm p.requirements = .ok () := by
  simp only [extract, Fallible.bind_eq_ok]
  constructor
  · rintro ⟨sel, hsel, ⟨⟩, hcheck, d', hd, ⟨⟩, hs, ⟨⟩, hl, h⟩
    cases h
    exact ⟨sel, hsel, hcheck, hd, hs, hl⟩
  · rintro ⟨sel, hsel, hcheck, hd, hs, hl⟩
    exact ⟨sel, hsel, (), hcheck, d, hd, (), hs, (), hl, rfl⟩

theorem checkLogicalForm_eq_ok :
    sel.checkLogicalForm requirements = .ok () ↔ ∀ r ∈ requirements, sel.meets r.demand = true := by
  rw [Selection.checkLogicalForm, Fallible.forM_eq_ok]
  refine forall₂_congr fun r _ => ?_
  split
  · rename_i h
    simp [h]
  · rename_i h
    simp [h]

end Problem

/-- What an assignment selects that makes a formula true. -/
structure Grammar.Selects (g : Grammar) (c : Condition) (p : Problem) (sel : Selection) : Prop where
  isOffered : sel.IsOffered p.schema
  isDerivation : sel.IsDerivation
  isSorted : sel.IsSorted
  isInOrder : g.linearizes c = true → sel.IsInOrder
  meets : ∀ r ∈ p.requirements, sel.meets r.demand = true

namespace Grammar

theorem result_assemble (g : Grammar) (c : Condition) (s : Schema) (requirements : List Requirement) (f : Formula) :
    result (g.assemble c s requirements) f = result (Encoding.build s) f := by
  rw [assemble, result_bind, Assembly.constrain_eq, result_bind, Assembly.result_close]

theorem formula_assemble (g : Grammar) (c : Condition) (s : Schema) (requirements : List Requirement) (f : Formula) :
    formula (g.assemble c s requirements) f =
      formula (Assembly.close s (g.linearizes c) requirements (result (Encoding.build s) f))
        (formula (g.locality.constrain s (result (Encoding.build s) f)) (formula (Encoding.build s) f)) := by
  rw [assemble, formula_bind, Assembly.constrain_eq, formula_bind]

theorem IsPrepared.isBuilt (hp : g.IsPrepared c p) : p.schema.IsBuilt := (Schema.build_eq_ok_iff.1 hp.schema).2.2

theorem value_zero_of_holds (hg : g.locality.OnlyAdds) (hp : g.IsPrepared c p) (ha : p.formula.Holds a) :
    a 0 = true := by
  have hgrows : Grows (g.assemble c p.schema p.requirements) :=
    (Encoding.adds_build _).grows.bind fun enc => (hg _ _).bind fun _ => (Assembly.adds_close _ _ _ _).grows
  rw [hp.formula] at ha
  have hfirst := hgrows.holds ha [.top] (by simp [EmptyCollection.emptyCollection])
  simpa [Literal.value, Literal.top] using hfirst

theorem IsPrepared.encoding_eq (hp : g.IsPrepared c p) : p.encoding = result (Encoding.build p.schema) ∅ := by
  rw [hp.encoding, result_assemble]

theorem exists_described (hg : g.locality.OnlyAdds) (hp : g.IsPrepared c p) (ha : p.formula.Holds a) :
    ∃ sel v, g.Selects c p sel ∧ (v.IsTotal ∧ v.value = a) ∧ p.encoding.Describes v sel ∧
      (formula (g.locality.constrain p.schema p.encoding) (formula (Encoding.build p.schema) ∅)).Holds a := by
  have h0 := value_zero_of_holds hg hp ha
  have ht := Valuation.isTotal_ofAssignment h0
  rw [hp.formula, formula_assemble, ← hp.encoding_eq] at ha
  have hlocality := (Assembly.adds_close _ _ _ _).holds ha
  have hbuild := (hg _ _).holds hlocality
  obtain ⟨sel, ⟨ho, hd, hsorted⟩, henc⟩ :=
    (Encoding.offers_build (v := Valuation.ofAssignment a h0) hp.isBuilt).1 ∅ ht hbuild
  rw [← hp.encoding_eq] at henc
  have hf := ho.isFilled hp.isBuilt
  obtain ⟨horder, hmeets⟩ := Assembly.of_holds_close ho.schema hf hd ho.mem_linkPairs henc ht ha
  exact ⟨sel, _, ⟨ho, hd, hsorted, horder, hmeets⟩, ⟨ht, rfl⟩, henc, hlocality⟩

/-- An assignment that makes the formula true selects a derivation that is as required. -/
theorem exists_selects (hg : g.locality.OnlyAdds) (hp : g.IsPrepared c p) (ha : p.formula.Holds a) :
    ∃ sel, g.Selects c p sel ∧ Selection.ofAssignment p.schema p.encoding a = .ok sel := by
  obtain ⟨sel, v, h, ⟨_, rfl⟩, henc, _⟩ := exists_described hg hp ha
  exact ⟨sel, h, Encoding.ofAssignment_eq hp.isBuilt h.isOffered henc⟩

theorem Selects.isFilled (h : g.Selects c p sel) (hp : g.IsPrepared c p) : sel.IsFilled :=
  h.isOffered.isFilled hp.isBuilt

theorem IsPrepared.sentence_eq (hp : g.IsPrepared c p) {expected : List String} (h : p.sentence = some expected) :
    g.linearizes c = true ∧ expected = p.schema.words := by
  rw [hp.sentence] at h
  split at h
  · rename_i hlin
    refine ⟨hlin, ?_⟩
    obtain ⟨words, hall, hwords⟩ := Fallible.bind_eq_ok.1 hp.words
    have hwords : words = p.schema.words := by
      dsimp only at hwords
      split at hwords
      · cases hwords
      · cases hwords
        rfl
    rw [Condition.allWords, h] at hall
    split at hall
    · rename_i sentence _ _ he _
      cases he
      split at hall <;> cases hall
      exact hwords
    · rename_i sentence _ he _
      cases he
      cases hall
      exact hwords
    · rename_i he _
      cases he
    · rename_i he _ _
      cases he
    · rename_i he _ _
      cases he
  · cases h

/-- Such a selection passes all checks of the extraction. -/
theorem Selects.extract (h : g.Selects c p sel) (hp : g.IsPrepared c p)
    (hsel : Selection.ofAssignment p.schema p.encoding a = .ok sel) :
    ∃ d, sel.derivation = .ok d ∧ p.extract a = .ok d := by
  have hf := h.isFilled hp
  obtain ⟨d, hd⟩ := h.isDerivation.exists_derivation hf
  refine ⟨d, hd, Problem.extract_eq_ok.2 ⟨sel, hsel, (Selection.check_eq_ok_iff hf).2 h.isDerivation, hd, ?_,
    Problem.checkLogicalForm_eq_ok.2 h.meets⟩⟩
  rw [Problem.checkSentence]
  split
  · rename_i expected he
    obtain ⟨hlin, rfl⟩ := hp.sentence_eq he
    have hpron := Selection.pronounced_eq hf h.isDerivation hd (h.isInOrder hlin)
    rw [h.isOffered.schema] at hpron
    rw [if_pos hpron]
  · rfl

/-- Every assignment that makes the formula true has a derivation, whatever the locality policy adds. -/
theorem exists_extract_of_holds (hg : g.locality.OnlyAdds) (hp : g.prepare c = .ok p) (ha : p.formula.Holds a) :
    ∃ d, p.extract a = .ok d := by
  have hp := isPrepared_of_prepare hp
  obtain ⟨sel, h, hsel⟩ := exists_selects hg hp ha
  obtain ⟨d, _, hd⟩ := h.extract hp hsel
  exact ⟨d, hd⟩

/-- A verb that selects its subject, and a name. -/
def verbAndName : Grammar where
  lexicon := ⟨[
    ⟨"sleeps", [⟨"D", .selector, false⟩, ⟨"C", .category, false⟩], some "sleeps", none, by decide, by decide +kernel⟩,
    ⟨"Mary", [⟨"D", .selectee, false⟩], some "Mary", none, by decide, by decide +kernel⟩], by decide, by decide⟩

/-- The name after the verb. -/
def verbThenName : Condition := { sentence := some ["sleeps", "Mary"] }

theorem exists_extract_verbThenName : verbAndName.locality.OnlyAdds ∧ ∃ p, verbAndName.prepare verbThenName = .ok p ∧
    p.formula.Holds (fun _ => true) ∧ ∃ d, p.extract (fun _ => true) = .ok d := by
  have hall : (verbAndName.prepare verbThenName).toOption.any
      (fun p => decide (p.formula.Holds fun _ => true)) = true := by decide +kernel
  cases hp : verbAndName.prepare verbThenName with
  | error e =>
    rw [hp] at hall
    cases hall
  | ok p =>
    rw [hp] at hall
    have ha : p.formula.Holds fun _ => true := of_decide_eq_true hall
    exact ⟨LocalityPolicy.onlyAdds_shortestMove, p, rfl, ha, exists_extract_of_holds LocalityPolicy.onlyAdds_shortestMove hp ha⟩

end Grammar

end MinimalistGrammar
