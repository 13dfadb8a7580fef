import MinimalistGrammar.Proofs.Encoding.Alignment
import MinimalistGrammar.Proofs.Parse.Extraction
import MinimalistGrammar.Proofs.Sat.Extension

/-!
The words are put in order twice: by clauses, and by walking through the tree. The clauses say less than there is to
say: a slot may be pinned at more points than it is pronounced under, and no clause makes the order of the sites
transitive. They can be met all the same just when the walk comes to the words in the order of the sentence.
-/

namespace MinimalistGrammar

open MinimalistGrammar.Sat
open MinimalistGrammar.Sat.Builder

namespace Encoding

variable {v : Valuation} {s : Schema} {sel : Selection} {enc : Encoding} {f f₀ : Formula} {a : Assignment}

theorem exists_describes (hs : s.IsBuilt) (ho : sel.IsOffered s) (hd : sel.IsDerivation) :
    ∃ v, (∀ n, v.knows n → n < (formula (build s) ∅).numVars) ∧ Describes v sel (result (build s) ∅) := by
  have hbuild : build s = (Lexical.build s >>= fun lex => Checking.build s lex >>= frame s lex) >>= fun enc =>
      enc.lexical.orderCovertSlots s >>= fun _ => pure enc := by
    rw [build]
    simp only [constrain_eq, frame, bind_assoc, pure_bind]
  obtain ⟨v, _, hm, henc⟩ := (offers_linked hs (adds_frame s) (fun _ h => h.toIsMatching) fun hsel hf hm hsub hlex hc =>
    hsel ▸ spec_frame hf hm hsub hlex hc).2 ∅ sel Valuation.models_initial ⟨ho, hd⟩
  rw [hbuild]
  have hadds : ∀ enc : Encoding, Adds (enc.lexical.orderCovertSlots s >>= fun _ => pure enc) := fun _ =>
    adds_bind (Lexical.adds_orderCovertSlots _ _) fun _ => adds_pure _
  exact ⟨v, fun n hn => Nat.lt_of_lt_of_le ((hm.knows_iff n).1 hn) ((hadds _).grows _).1, henc⟩

/-- The clauses that the word order adds to a formula. -/
def wordOrderClauses (s : Schema) (enc : Encoding) (f : Formula) : List Clause :=
  (formula (enc.requireWordOrder s) f).clauses.toList.drop f.clauses.size

/-- The further variables can be given values that meet the clauses when the words are in order, and only then. -/
theorem exists_wordOrderClauses_iff (hf : sel.IsFilled) (hd : sel.IsDerivation)
    (hsub : ∀ l ∈ sel.links, l ∈ sel.schema.linkPairs) (hv : v.Settles f) (henc : enc.Describes v sel) :
    (∃ a, (∀ n < f.numVars, a n = v.value n) ∧ ∀ c ∈ enc.wordOrderClauses sel.schema f, c.Holds a) ↔ sel.IsInOrder :=
  exists_clausesOf_iff (adds_requireWordOrder _ _) hv fun _ hle => asserts_requireWordOrder hf hd hsub (henc.mono hle)

/-- The walk through the derivation of a selection that passes the checks ends, and the values of the selection leave the
clauses of the word order satisfiable just when the walk comes to the words in the order of the sentence. -/
theorem satisfiable_wordOrder_iff_positions {lex : Lexicon} {words : List String} {bounds : Bounds}
    {families : List FamilySize} (hs : Schema.build lex words bounds = .ok s)
    (henc : ((Assembly.describe s).run []).run ∅ = ((enc, families), f₀))
    (hsel : Selection.ofAssignment s enc a = .ok sel) (hcheck : sel.check = .ok ()) :
    ∃ d order, sel.derivation = .ok d ∧ (∀ fuel, d.nodes.length ≤ fuel → d.linearize fuel = some order) ∧
      ∀ f, f₀.numVars ≤ f.numVars →
        (∃ v, v.Settles f ∧ enc.Describes v sel ∧ Selection.ofAssignment s enc v.value = .ok sel) ∧
          ∀ v, v.Settles f → enc.Describes v sel →
            ((∃ b, (∀ n < f.numVars, b n = v.value n) ∧ ∀ c ∈ enc.wordOrderClauses s f, c.Holds b) ↔
              order.filterMap (fun l => (d.leaf? l).bind (·.position)) = List.range words.length) := by
  obtain ⟨_, ⟨_, hwords, _⟩, hb⟩ := Schema.build_eq_ok_iff.1 hs
  obtain ⟨hr, hform⟩ := Assembly.tracks_describe s [] ∅
  rw [result, henc] at hr
  rw [formula, henc] at hform
  obtain rfl : enc = result (build s) ∅ := hr
  obtain rfl : f₀ = formula (build s) ∅ := hform
  have ho := isOffered_of_ofAssignment (aligns_build hb) hsel
  obtain rfl := ho.schema
  have hf := ho.isFilled hb
  have hd := (Selection.check_eq_ok_iff hf).1 hcheck
  obtain ⟨d, hder⟩ := hd.exists_derivation hf
  refine ⟨d, d.order, hder, fun fuel hfuel => Selection.linearize_eq_order hf hd hder hfuel, fun f hle => ⟨?_, fun v hv hdesc => ?_⟩⟩
  · obtain ⟨v, hknows, hdesc⟩ := exists_describes hb ho hd
    obtain ⟨v', hv', hle'⟩ := Valuation.exists_settles fun n hn => Nat.lt_of_lt_of_le (hknows n hn) hle
    exact ⟨v', hv', hdesc.mono hle', ofAssignment_eq hb ho (hdesc.mono hle')⟩
  · rw [← hwords, ← Derivation.positions, ← Selection.isInOrder_iff_positions hf hd hder]
    exact exists_wordOrderClauses_iff hf hd ho.mem_linkPairs hv hdesc

/-- A verb selects the name before it. Its complement is spelled out after it, so that no values are left. -/
theorem satisfiable_wordOrder_nameThenVerb : ∃ s enc families f₀ sel,
    Schema.build Grammar.verbAndName.lexicon ["Mary", "sleeps"] {} = .ok s ∧
      ((Assembly.describe s).run []).run ∅ = ((enc, families), f₀) ∧
        Selection.ofAssignment s enc (fun _ => true) = .ok sel ∧ sel.check = .ok () ∧
          ∃ d, sel.derivation = .ok d ∧ (∀ fuel, d.nodes.length ≤ fuel → d.linearize fuel = some [0, 1]) ∧
            [0, 1].filterMap (fun l => (d.leaf? l).bind (·.position)) = [1, 0] ∧ ∀ f, f₀.numVars ≤ f.numVars →
              (∃ v, v.Settles f ∧ enc.Describes v sel ∧ Selection.ofAssignment s enc v.value = .ok sel) ∧
                ∀ v, v.Settles f → enc.Describes v sel →
                  ¬∃ b, (∀ n < f.numVars, b n = v.value n) ∧ ∀ c ∈ enc.wordOrderClauses s f, c.Holds b := by
  have hall : (Schema.build Grammar.verbAndName.lexicon ["Mary", "sleeps"] {}).toOption.any (fun s =>
      (Selection.ofAssignment s (((Assembly.describe s).run []).run ∅).1.1 fun _ => true).toOption.any fun sel =>
        (sel.check.toOption.any fun _ => true) && sel.derivation.toOption.any fun d =>
          decide (d.linearize d.nodes.length = some [0, 1]) &&
            decide ([0, 1].filterMap (fun l => (d.leaf? l).bind (·.position)) = [1, 0])) = true := by
    decide +kernel
  obtain ⟨s, hs, h⟩ := Fallible.exists_of_any hall
  obtain ⟨sel, hsel, h⟩ := Fallible.exists_of_any h
  obtain ⟨hcheck, hd⟩ := Bool.and_eq_true_iff.1 h
  obtain ⟨_, hcheck, _⟩ := Fallible.exists_of_any hcheck
  obtain ⟨d, hd, h⟩ := Fallible.exists_of_any hd
  obtain ⟨hlin, hpos⟩ := Bool.and_eq_true_iff.1 h
  have hpos : [0, 1].filterMap (fun l => (d.leaf? l).bind (·.position)) = [1, 0] := of_decide_eq_true hpos
  obtain ⟨d', order, hd', hwalk, hagree⟩ := satisfiable_wordOrder_iff_positions hs rfl hsel hcheck
  obtain rfl : d = d' := Except.ok.inj (hd.symm.trans hd')
  obtain rfl := Option.some.inj ((hwalk _ (Nat.le_refl _)).symm.trans (of_decide_eq_true hlin))
  refine ⟨s, _, _, _, sel, hs, rfl, hsel, hcheck, d, hd, hwalk, hpos, fun f hle => ⟨(hagree f hle).1, fun v hv henc hb => ?_⟩⟩
  have := ((hagree f hle).2 v hv henc).1 hb
  rw [hpos] at this
  exact absurd this (by decide)

end Encoding

end MinimalistGrammar
