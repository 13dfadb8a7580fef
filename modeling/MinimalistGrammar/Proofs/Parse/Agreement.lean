import MinimalistGrammar.Proofs.Parse.Linearization
import MinimalistGrammar.Proofs.Selection.Agreement

/-!
Agreement in logical form, as it is checked in a structure and as its clauses put it. Both ask for the phrase at the point
that is checked, so a phrase of several words counts when it is merged, and no longer when it has moved.
-/

namespace MinimalistGrammar

open MinimalistGrammar.Sat
open MinimalistGrammar.Sat.Builder

namespace Encoding

variable {lex : Lexicon} {words : List String} {bounds : Bounds} {s : Schema} {enc : Encoding}
  {families : List FamilySize} {f₀ : Formula} {a : Assignment} {sel : Selection}

/-- A selection that passes the checks is a derivation, and there are values that describe it. -/
theorem isDerivation_and_exists_describes (hs : Schema.build lex words bounds = .ok s)
    (henc : ((Assembly.describe s).run []).run ∅ = ((enc, families), f₀))
    (hsel : Selection.ofAssignment s enc a = .ok sel) (hcheck : sel.check = .ok ()) :
    (sel.IsFilled ∧ sel.IsDerivation) ∧ (sel.schema = s ∧ ∀ l ∈ sel.links, l ∈ sel.schema.linkPairs) ∧
      ∀ f : Formula, f₀.numVars ≤ f.numVars →
        ∃ v, v.Settles f ∧ enc.Describes v sel ∧ Selection.ofAssignment s enc v.value = .ok sel := by
  obtain ⟨_, _, hb⟩ := Schema.build_eq_ok_iff.1 hs
  obtain ⟨hr, hform⟩ := Assembly.tracks_describe s [] ∅
  rw [result, henc] at hr
  rw [formula, henc] at hform
  obtain rfl : enc = result (build s) ∅ := hr
  obtain rfl : f₀ = formula (build s) ∅ := hform
  have ho := isOffered_of_ofAssignment (aligns_build hb) hsel
  have hf := ho.isFilled hb
  have hd := (Selection.check_eq_ok_iff hf).1 hcheck
  refine ⟨⟨hf, hd⟩, ⟨ho.schema, ho.mem_linkPairs⟩, fun f hle => ?_⟩
  obtain ⟨v, hknows, hdesc⟩ := exists_describes hb ho hd
  obtain ⟨v', hv', hle'⟩ := Valuation.exists_settles fun n hn => Nat.lt_of_lt_of_le (hknows n hn) hle
  exact ⟨v', hv', hdesc.mono hle', ofAssignment_eq hb ho (hdesc.mono hle')⟩

/-- The check and the clauses agree on when a predicate agrees with a phrase: it checks the maximal projection of the
phrase, or a phrase of one word. -/
theorem meets_agree_and_satisfiable_iff (hs : Schema.build lex words bounds = .ok s)
    (henc : ((Assembly.describe s).run []).run ∅ = ((enc, families), f₀))
    (hsel : Selection.ofAssignment s enc a = .ok sel) (hcheck : sel.check = .ok ()) (predicate : SlotId)
    (argument : List SlotId) :
    (sel.meets (.agree predicate argument) = true ↔ sel.ChecksPhrase predicate argument) ∧
      ∀ f, f₀.numVars ≤ f.numVars →
        (∃ v, v.Settles f ∧ enc.Describes v sel ∧ Selection.ofAssignment s enc v.value = .ok sel) ∧
          ∀ v description, v.Settles f → enc.Describes v sel →
            ((∃ b, (∀ n < f.numVars, b n = v.value n) ∧
                ∀ c ∈ clausesOf (enc.require s [⟨description, .agree predicate argument⟩]) f, c.Holds b) ↔
              sel.ChecksPhrase predicate argument) := by
  obtain ⟨⟨hf, hd⟩, ⟨rfl, hsub⟩, hdescribed⟩ := isDerivation_and_exists_describes hs henc hsel hcheck
  have hlaw : sel.meets (.agree predicate argument) = true ↔ sel.ChecksPhrase predicate argument :=
    Selection.meets_agree_iff hf hd.toIsMatching hd.isAcyclic
  refine ⟨hlaw, fun f hle => ⟨hdescribed f hle, fun v description hv hdesc => ?_⟩⟩
  rw [exists_clausesOf_iff (adds_require _ _ _) hv fun _ hle => asserts_require hf hd hsub (hdesc.mono hle) _]
  simpa using hlaw

end Encoding

/-- A noun phrase is merged by a verb and attracted by what selects the verb. -/
def Grammar.whPhrase : Lexicon := ⟨[
  ⟨"did", [⟨"Verb", .selector, false⟩, ⟨"wh", .licensor, false⟩, ⟨"Clause", .category, false⟩], some "did", none, by decide,
    by decide +kernel⟩,
  ⟨"vanish", [⟨"Nominal", .selector, false⟩, ⟨"Verb", .selectee, false⟩], some "vanish", none, by decide, by decide +kernel⟩,
  ⟨"which", [⟨"Noun", .selector, false⟩, ⟨"Nominal", .selectee, false⟩, ⟨"wh", .licensee, false⟩], some "which", none, by decide,
    by decide +kernel⟩,
  ⟨"book", [⟨"Noun", .selectee, false⟩], some "book", none, by decide, by decide +kernel⟩], by decide, by decide⟩

namespace Encoding

/-- The phrase of two words is selected by the verb, and then it moves to what selects the verb. -/
theorem exists_check_whPhrase : ∃ s sel, Schema.build Grammar.whPhrase ["which", "book", "did", "vanish"] {} = .ok s ∧
    (Selection.ofAssignment s (((Assembly.describe s).run []).run ∅).1.1 (fun _ => true) = .ok sel ∧ sel.check = .ok ()) ∧
      sel.meets (.agree 3 [0, 1]) = true ∧ sel.Agrees 2 [0, 1] ∧ sel.meets (.agree 2 [0, 1]) = false := by
  have hall : (Schema.build Grammar.whPhrase ["which", "book", "did", "vanish"] {}).toOption.any (fun s =>
      (Selection.ofAssignment s (((Assembly.describe s).run []).run ∅).1.1 fun _ => true).toOption.any fun sel =>
        (sel.check.toOption.any fun _ => true) && decide (sel.meets (.agree 3 [0, 1]) = true ∧
          sel.Agrees 2 [0, 1] ∧ sel.meets (.agree 2 [0, 1]) = false)) = true := by
    decide +kernel
  obtain ⟨s, hs, h⟩ := Fallible.exists_of_any hall
  obtain ⟨sel, hsel, h⟩ := Fallible.exists_of_any h
  obtain ⟨hcheck, h⟩ := Bool.and_eq_true_iff.1 h
  obtain ⟨_, hcheck, _⟩ := Fallible.exists_of_any hcheck
  exact ⟨s, sel, hs, ⟨hsel, hcheck⟩, of_decide_eq_true h⟩

/-- The verb agrees with the noun phrase that it merges, and its clause can be met. What attracts the phrase does not,
and its clause cannot be met. -/
theorem meets_agree_whPhrase : ∃ s enc families f₀ sel,
    Schema.build Grammar.whPhrase ["which", "book", "did", "vanish"] {} = .ok s ∧
      ((Assembly.describe s).run []).run ∅ = ((enc, families), f₀) ∧
        Selection.ofAssignment s enc (fun _ => true) = .ok sel ∧ sel.check = .ok () ∧
          sel.meets (.agree 3 [0, 1]) = true ∧ ∃ v, v.Settles f₀ ∧ enc.Describes v sel ∧
            (∃ b, (∀ n < f₀.numVars, b n = v.value n) ∧
              ∀ c ∈ clausesOf (enc.require s [⟨"", .agree 3 [0, 1]⟩]) f₀, c.Holds b) ∧
            ¬∃ b, (∀ n < f₀.numVars, b n = v.value n) ∧
              ∀ c ∈ clausesOf (enc.require s [⟨"", .agree 2 [0, 1]⟩]) f₀, c.Holds b := by
  obtain ⟨s, sel, hs, ⟨hsel, hcheck⟩, hmerge, _, hmove⟩ := exists_check_whPhrase
  obtain ⟨hlaw, hclauses⟩ := meets_agree_and_satisfiable_iff hs rfl hsel hcheck 3 [0, 1]
  obtain ⟨hlaw', hclauses'⟩ := meets_agree_and_satisfiable_iff hs rfl hsel hcheck 2 [0, 1]
  obtain ⟨⟨v, hv, hdesc, _⟩, hsat⟩ := hclauses _ (Nat.le_refl _)
  obtain ⟨_, hsat'⟩ := hclauses' _ (Nat.le_refl _)
  refine ⟨s, _, _, _, sel, hs, rfl, hsel, hcheck, hmerge, v, hv, hdesc, (hsat v "" hv hdesc).2 (hlaw.1 hmerge), ?_⟩
  rw [hsat' v "" hv hdesc, ← hlaw', Bool.not_eq_true]
  exact hmove

/-- What attracts the noun phrase checks a feature of its head, and is said not to agree with it. -/
theorem agrees_not_meets_whPhrase : ∃ s enc families f₀ sel,
    Schema.build Grammar.whPhrase ["which", "book", "did", "vanish"] {} = .ok s ∧
      ((Assembly.describe s).run []).run ∅ = ((enc, families), f₀) ∧
        Selection.ofAssignment s enc (fun _ => true) = .ok sel ∧ sel.check = .ok () ∧
          sel.Agrees 2 [0, 1] ∧ sel.meets (.agree 2 [0, 1]) = false := by
  obtain ⟨s, sel, hs, ⟨hsel, hcheck⟩, _, hagrees, hmove⟩ := exists_check_whPhrase
  exact ⟨s, _, _, _, sel, hs, rfl, hsel, hcheck, hagrees, hmove⟩

end Encoding

end MinimalistGrammar
