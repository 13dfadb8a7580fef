import MinimalistGrammar.Proofs.Parse.Completeness
import MinimalistGrammar.Proofs.Sat.Extension

/-!
Which families of clauses a formula is made of. Those of the interfaces are there just if the interface is on and has a target
that constrains derivations, and a parse for which both interfaces are off or have no target is refused.
-/

namespace MinimalistGrammar

open MinimalistGrammar.Sat
open MinimalistGrammar.Sat.Builder

/-- Whether the logical form asks anything of a derivation, the words it is built from apart. -/
def LogicalForm.Requires (form : LogicalForm) : Prop :=
  form.root ≠ none ∨ form.categories.toList ≠ [] ∨ form.relations ≠ []

theorem Requirement.ne_nil_iff_requires {s : Schema} {form : LogicalForm} {requirements : List Requirement}
    (h : Requirement.ofLogicalForm s form = .ok requirements) : requirements ≠ [] ↔ form.Requires := by
  obtain ⟨categories, hcategories, h⟩ := Fallible.bind_eq_ok.1 h
  obtain ⟨relations, hrelations, h⟩ := Fallible.bind_eq_ok.1 h
  have hc := (Fallible.mapM_eq_ok.1 hcategories).length_eq
  have hr := (Fallible.mapM_eq_ok.1 hrelations).length_eq
  cases h
  rw [LogicalForm.Requires, ne_eq, List.append_eq_nil_iff, List.append_eq_nil_iff, List.map_eq_nil_iff,
    Option.toList_eq_nil_iff, ← List.length_eq_zero_iff (l := categories), ← hc, ← List.length_eq_zero_iff (l := relations),
    ← hr, List.length_eq_zero_iff, List.length_eq_zero_iff, not_and_or, not_and_or, or_assoc]

namespace Assembly

theorem mem_familiesOf_iff {linearize interpret : Bool} : (.linearization ∈ familiesOf linearize interpret ↔ linearize = true) ∧
    (.logicalForm ∈ familiesOf linearize interpret ↔ interpret = true) := by
  cases linearize <;> cases interpret <;> decide

variable {s : Schema} {enc : Encoding} {linearize : Bool} {requirements : List Requirement} {f : Formula} {c : Clause}

theorem mem_of_mem_clausesOf {α : Type} {b : Builder α} (h : c ∈ clausesOf b f) : c ∈ (formula b f).clauses :=
  Array.mem_toList_iff.1 (List.mem_of_mem_drop h)

theorem mem_close_of_wordOrder (h : c ∈ clausesOf (enc.requireWordOrder s) f) :
    c ∈ (formula (close s true requirements enc) f).clauses := by
  have heq : close s true requirements enc = enc.requireWordOrder s >>= fun _ => close s false requirements enc := rfl
  rw [heq, formula_bind, (adds_close s false requirements enc).clauses_eq]
  exact Array.mem_append_left _ (mem_of_mem_clausesOf h)

theorem exists_mem_close_of_require (s : Schema) (linearize : Bool) (enc : Encoding) (hr : requirements ≠ []) (f : Formula) :
    ∃ f', ∀ c ∈ clausesOf (enc.require s requirements) f',
      c ∈ (formula (close s linearize requirements enc) f).clauses := by
  have hlast : close s false requirements enc = enc.require s requirements >>= fun _ => pure enc :=
    if_pos (by simpa using hr)
  cases linearize with
  | false =>
    refine ⟨f, fun c h => ?_⟩
    rw [hlast, formula_bind, formula_pure]
    exact mem_of_mem_clausesOf h
  | true =>
    have heq : close s true requirements enc = enc.requireWordOrder s >>= fun _ => close s false requirements enc := rfl
    refine ⟨formula (enc.requireWordOrder s) f, fun c h => ?_⟩
    rw [heq, formula_bind, hlast, formula_bind, formula_pure]
    exact mem_of_mem_clausesOf h

end Assembly

/-- The formula has the clauses that a family adds, and the family is in the account. -/
def Problem.HasFamily (p : Problem) (family : Family) (b : Builder Unit) : Prop :=
  family ∈ p.families.map (·.family) ∧ ∃ f, ∀ c ∈ clausesOf b f, c ∈ p.formula.clauses

namespace Grammar

variable {g : Grammar} {c : Condition} {p : Problem}

theorem IsPrepared.exists_formula_close (hp : g.IsPrepared c p) :
    ∃ f, p.formula = Builder.formula (Assembly.close p.schema (g.linearizes c) p.requirements p.encoding) f := by
  rw [hp.formula, formula_assemble, ← hp.encoding_eq]
  exact ⟨_, rfl⟩

theorem IsPrepared.hasFamily_linearization_iff (hp : g.IsPrepared c p) :
    p.HasFamily .linearization (p.encoding.requireWordOrder p.schema) ↔ g.linearizes c = true := by
  rw [Problem.HasFamily, hp.families, Assembly.mem_familiesOf_iff.1]
  refine ⟨And.left, fun h => ⟨h, ?_⟩⟩
  obtain ⟨f, hf⟩ := hp.exists_formula_close
  rw [h] at hf
  exact ⟨f, fun c hc => hf ▸ Assembly.mem_close_of_wordOrder hc⟩

theorem IsPrepared.hasFamily_logicalForm_iff (hp : g.IsPrepared c p) :
    p.HasFamily .logicalForm (p.encoding.require p.schema p.requirements) ↔ p.requirements ≠ [] := by
  rw [Problem.HasFamily, hp.families, Assembly.mem_familiesOf_iff.2]
  constructor
  · rintro ⟨h, _⟩ hnil
    rw [hnil] at h
    cases h
  · intro h
    obtain ⟨f, hf⟩ := hp.exists_formula_close
    obtain ⟨f', hf'⟩ := Assembly.exists_mem_close_of_require p.schema (g.linearizes c) p.encoding h f
    exact ⟨by simpa using h, f', fun c hc => hf ▸ hf' c hc⟩

theorem IsPrepared.requirements_ne_nil_iff (hp : g.IsPrepared c p) :
    p.requirements ≠ [] ↔ ∃ form ∈ g.form? c, form.Requires := by
  have hr := hp.requirements
  rw [requirementsOf] at hr
  split at hr
  · rename_i form hform
    rw [Requirement.ne_nil_iff_requires (Fallible.mapError_ok_iff.1 hr), hform]
    simp
  · rename_i hform
    simp [← Except.ok.inj hr, hform]

theorem IsPrepared.linearizes_iff (hp : g.IsPrepared c p) :
    g.linearizes c = true ↔ g.options.constrainsSentence = true ∧ c.sentence = some p.schema.words := by
  constructor
  · intro h
    obtain ⟨hon, hsome⟩ := Bool.and_eq_true_iff.1 h
    obtain ⟨sentence, hs⟩ := Option.isSome_iff_exists.1 hsome
    have hsentence := hp.sentence
    rw [if_pos h, hs] at hsentence
    exact ⟨hon, (hp.sentence_eq hsentence).2 ▸ hs⟩
  · rintro ⟨hon, hs⟩
    rw [linearizes, hon, hs]
    rfl

theorem mem_form?_iff {form : LogicalForm} :
    form ∈ g.form? c ↔ g.options.constrainsLogicalForm = true ∧ form ∈ c.logicalForm := by
  rw [form?]
  cases g.options.constrainsLogicalForm <;> cases hc : c.logicalForm <;> simp

theorem exists_mem_form?_iff : (∃ form ∈ g.form? c, form.Requires) ↔
    g.options.constrainsLogicalForm = true ∧ ∃ form ∈ c.logicalForm, form.Requires := by
  simp only [mem_form?_iff, and_assoc, exists_and_left]

/-- How a parse is refused that no interface constrains. -/
theorem prepare_eq_error (hl : g.linearizes c = false) (hf : g.form? c = none) : g.prepare c = .error (.configuration
    (if g.options.allParses = true ∧ g.options.maxParses = 0 ∧
      (g.options.constrainsSentence = true ∨ g.options.constrainsLogicalForm = true)
    then .zeroParseLimit else .unconstrained)) := by
  have hnone : (!g.linearizes c && !(g.options.constrainsLogicalForm && c.logicalForm.isSome)) = true := by
    rw [← Bool.not_eq_false, unconstrained_iff, hl, hf]
    exact nofun
  rw [prepare, ParseOptions.validate, ← linearizes]
  dsimp only
  rw [if_pos hnone]
  cases g.options.constrainsSentence <;> cases g.options.constrainsLogicalForm <;> cases g.options.allParses <;>
    by_cases hm : g.options.maxParses = 0 <;> simp [hm] <;> rfl

/-- A formula that could be set up has the clauses of word order just if these are wanted and there is a sentence, which then
gives the words, and those of logical form just if these are wanted and a logical form asks something; so it has some of the
two, if a logical form asks something wherever one is wanted. Where neither a sentence nor a logical form is wanted and there,
nothing is set up, and that is the reason unless the options fail by themselves. -/
theorem hasFamily_of_prepare_and_prepare_eq_error (g : Grammar) (c : Condition) :
    (∀ p, g.prepare c = .ok p →
      (p.HasFamily .linearization (p.encoding.requireWordOrder p.schema) ↔
        g.options.constrainsSentence = true ∧ c.sentence = some p.schema.words) ∧
      (p.HasFamily .logicalForm (p.encoding.require p.schema p.requirements) ↔
        g.options.constrainsLogicalForm = true ∧ ∃ form ∈ c.logicalForm, form.Requires) ∧
      ((g.options.constrainsLogicalForm = true → ∀ form ∈ c.logicalForm, form.Requires) →
        p.HasFamily .linearization (p.encoding.requireWordOrder p.schema) ∨
          p.HasFamily .logicalForm (p.encoding.require p.schema p.requirements) ∧ p.requirements ≠ [])) ∧
    ((g.options.constrainsSentence = true → c.sentence = none) →
      (g.options.constrainsLogicalForm = true → c.logicalForm = none) →
        g.prepare c = .error (.configuration
          (if g.options.allParses = true ∧ g.options.maxParses = 0 ∧
            (g.options.constrainsSentence = true ∨ g.options.constrainsLogicalForm = true)
          then .zeroParseLimit else .unconstrained))) := by
  refine ⟨fun p hp => ?_, fun hsentence hform => prepare_eq_error ?_ ?_⟩
  · have hp := isPrepared_of_prepare hp
    rw [hp.hasFamily_linearization_iff, hp.hasFamily_logicalForm_iff, hp.requirements_ne_nil_iff, hp.linearizes_iff,
      exists_mem_form?_iff]
    refine ⟨Iff.rfl, Iff.rfl, fun hrequires => ?_⟩
    rcases hp.isConstrained with h | h
    · exact .inl (hp.linearizes_iff.1 h)
    · obtain ⟨form, hform⟩ := Option.isSome_iff_exists.1 h
      obtain ⟨hon, hmem⟩ := mem_form?_iff.1 hform
      have hsome := exists_mem_form?_iff.1 ⟨form, hform, hrequires hon form hmem⟩
      exact .inr ⟨hsome, hsome⟩
  · rw [linearizes, Bool.and_eq_false_imp]
    exact fun hon => by rw [hsentence hon]; rfl
  · refine Option.eq_none_iff_forall_not_mem.2 fun form hmem => ?_
    obtain ⟨hon, hmem⟩ := mem_form?_iff.1 hmem
    rw [hform hon] at hmem
    cases hmem

/-- A logical form that names the category of the root and the words. -/
def clauseOfVerb : Condition := { logicalForm := some { root := some "C", words := some ["rains"] } }

/-- The logical form constrains the parse, and without it nothing does. -/
theorem exists_prepare_clauseOfVerb : ∃ p, clauseAndVerb.prepare clauseOfVerb = .ok p ∧
    p.HasFamily .logicalForm (p.encoding.require p.schema p.requirements) ∧
      ¬p.HasFamily .linearization (p.encoding.requireWordOrder p.schema) ∧
        clauseAndVerb.prepare {} = .error (.configuration .unconstrained) := by
  have hall : (clauseAndVerb.prepare clauseOfVerb).toOption.any (fun _ => true) = true := by decide +kernel
  obtain ⟨p, hp, _⟩ := Fallible.exists_of_any hall
  obtain ⟨hsentence, hform, _⟩ := (hasFamily_of_prepare_and_prepare_eq_error clauseAndVerb clauseOfVerb).1 p hp
  refine ⟨p, hp, hform.2 ⟨rfl, _, rfl, .inl nofun⟩, fun h => ?_,
    (hasFamily_of_prepare_and_prepare_eq_error clauseAndVerb {}).2 (fun _ => rfl) (fun _ => rfl)⟩
  cases (hsentence.1 h).2

/-- Asked for all parses but none of them, a grammar refuses a condition without targets for that reason; and it sets up a
parse for the words of a logical form that asks nothing, with the clauses of neither interface. -/
theorem exists_prepare_without_constraints :
    { clauseAndVerb with options := { allParses := true, maxParses := 0 } }.prepare {} =
        .error (.configuration .zeroParseLimit) ∧
      ∃ p, clauseAndVerb.prepare { logicalForm := some { words := some ["rains"] } } = .ok p ∧
        .linearization ∉ p.families.map (·.family) ∧ .logicalForm ∉ p.families.map (·.family) := by
  have hall : (clauseAndVerb.prepare { logicalForm := some { words := some ["rains"] } }).toOption.any (fun p =>
      decide (.linearization ∉ p.families.map (·.family) ∧ .logicalForm ∉ p.families.map (·.family))) = true := by
    decide +kernel
  obtain ⟨p, hp, hno⟩ := Fallible.exists_of_any hall
  exact ⟨rfl, p, hp, of_decide_eq_true hno⟩

end Grammar

end MinimalistGrammar
