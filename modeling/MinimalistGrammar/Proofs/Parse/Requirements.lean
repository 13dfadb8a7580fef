import MinimalistGrammar.Proofs.Parse.Agreement
import MinimalistGrammar.Proofs.Parse.Tree

/-!
Logical form is read twice, by clauses and by the check of a structure. The clauses list the points where an argument may
stand, under any choice of items, and leave out those for which there is no dominance literal; the check looks only at
what the structure has. Over any tree they ask for the same.
-/

namespace MinimalistGrammar

open MinimalistGrammar.Sat
open MinimalistGrammar.Sat.Builder

namespace Encoding

variable {lex : Lexicon} {words : List String} {bounds : Bounds} {s : Schema} {sel : Selection} {enc : Encoding}
  {families : List FamilySize} {f f₀ : Formula} {v : Valuation} {requirements : List Requirement}

/-- Where the literals describe a tree, the clauses for logical form can be met exactly if all demands are. -/
theorem exists_requireClauses_iff (hf : sel.IsFilled) (ht : sel.IsTree)
    (hsub : ∀ l ∈ sel.links, l ∈ sel.schema.linkPairs) (hv : v.Settles f) (henc : enc.Outlines v sel) :
    (∃ a, (∀ n < f.numVars, a n = v.value n) ∧ ∀ c ∈ clausesOf (enc.require sel.schema requirements) f, c.Holds a) ↔
      ∀ r ∈ requirements, sel.meets r.demand = true :=
  exists_clausesOf_iff (adds_require _ _ _) hv fun _ hle => asserts_require_of_isTree hf ht hsub (henc.mono hle) _

/-- Every assignment that makes the first families true selects a structure, and can be extended to the variables of
logical form so that the clauses hold exactly if the structure passes the check. -/
theorem satisfiable_require_iff_meets (hs : Schema.build lex words bounds = .ok s)
    (henc : ((Assembly.describe s).run []).run ∅ = ((enc, families), f₀)) :
    ((formula (skeleton s) ∅).numVars ≤ f₀.numVars ∧ ∀ c ∈ (formula (skeleton s) ∅).clauses, c ∈ f₀.clauses) ∧
      ∀ a, (formula (skeleton s) ∅).Holds a → ∃ sel, Selection.ofAssignment s enc a = .ok sel ∧
        ∀ requirements f, (formula (skeleton s) ∅).numVars ≤ f.numVars →
          ((∃ b, (∀ n < f.numVars, b n = a n) ∧ ∀ c ∈ clausesOf (enc.require s requirements) f, c.Holds b) ↔
            ∀ r ∈ requirements, sel.meets r.demand = true) := by
  obtain ⟨_, _, hb⟩ := Schema.build_eq_ok_iff.1 hs
  obtain ⟨rfl, hgrows⟩ := grows_skeleton henc
  refine ⟨hgrows, fun a ha => ?_⟩
  obtain ⟨sel, hsel, ⟨ho, ht⟩, houtlines⟩ := exists_isTree_of_holds hb ha
  refine ⟨sel, hsel, fun requirements f hle => ?_⟩
  obtain ⟨v, rfl, hv, houtlined⟩ := houtlines f hle
  obtain rfl := ho.schema
  exact exists_requireClauses_iff (ho.isFilled hb) ht ho.mem_linkPairs hv houtlined

/-- The root, the category of the verb, its object and its agreement are as the clauses and the check want them. With the
phrase as a subject, or with an argument of no words, neither has it. -/
theorem satisfiable_require_whPhrase : ∃ s enc families f₀ sel,
    Schema.build Grammar.whPhrase ["which", "book", "did", "vanish"] {} = .ok s ∧
      ((Assembly.describe s).run []).run ∅ = ((enc, families), f₀) ∧
        ((formula (skeleton s) ∅).Holds fun _ => true) ∧ Selection.ofAssignment s enc (fun _ => true) = .ok sel ∧
          (∃ b, (∀ n < f₀.numVars, b n = true) ∧ ∀ c ∈ clausesOf (enc.require s [⟨"", .root "Clause"⟩,
            ⟨"", .category 3 "Verb"⟩, ⟨"", .theta 3 .obj [0, 1]⟩, ⟨"", .agree 3 [0, 1]⟩]) f₀, c.Holds b) ∧
          (¬∃ b, (∀ n < f₀.numVars, b n = true) ∧
            ∀ c ∈ clausesOf (enc.require s [⟨"", .theta 3 .subj [0, 1]⟩]) f₀, c.Holds b) ∧
          ¬∃ b, (∀ n < f₀.numVars, b n = true) ∧
            ∀ c ∈ clausesOf (enc.require s [⟨"", .agree 3 []⟩]) f₀, c.Holds b := by
  have hall : (Schema.build Grammar.whPhrase ["which", "book", "did", "vanish"] {}).toOption.any (fun s =>
      decide ((formula (skeleton s) ∅).Holds fun _ => true) &&
        (Selection.ofAssignment s (((Assembly.describe s).run []).run ∅).1.1 fun _ => true).toOption.any fun sel =>
          decide ((∀ r ∈ ([⟨"", .root "Clause"⟩, ⟨"", .category 3 "Verb"⟩, ⟨"", .theta 3 .obj [0, 1]⟩,
            ⟨"", .agree 3 [0, 1]⟩] : List Requirement), sel.meets r.demand = true) ∧
            (¬∀ r ∈ ([⟨"", .theta 3 .subj [0, 1]⟩] : List Requirement), sel.meets r.demand = true) ∧
              ¬∀ r ∈ ([⟨"", .agree 3 []⟩] : List Requirement), sel.meets r.demand = true)) = true := by
    decide +kernel
  obtain ⟨s, hs, h⟩ := Fallible.exists_of_any hall
  obtain ⟨hholds, h⟩ := Bool.and_eq_true_iff.1 h
  have hholds := of_decide_eq_true hholds
  obtain ⟨sel, hsel, h⟩ := Fallible.exists_of_any h
  obtain ⟨hmet, hsubject, hempty⟩ := of_decide_eq_true h
  obtain ⟨⟨hle, _⟩, hread⟩ := satisfiable_require_iff_meets hs rfl
  obtain ⟨sel', hsel', hiff⟩ := hread _ hholds
  obtain rfl : sel = sel' := Except.ok.inj (hsel.symm.trans hsel')
  exact ⟨s, _, _, _, sel, hs, rfl, hholds, hsel, (hiff _ _ hle).2 hmet, fun hb => hsubject ((hiff _ _ hle).1 hb),
    fun hb => hempty ((hiff _ _ hle).1 hb)⟩

end Encoding

end MinimalistGrammar
