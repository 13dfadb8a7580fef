import MinimalistGrammar.Proofs.Parse.Validity
import MinimalistGrammar.Proofs.Selection.Pronunciation

/-!
Whatever the policy and the interfaces ask for, a selection that passes the checks can be pronounced. The words may come
in another order than in the sentence, but none is lost and none comes twice.
-/

namespace MinimalistGrammar

open MinimalistGrammar.Sat

namespace Problem

variable {p : Problem} {a : Assignment} {sel : Selection}

/-- The walk from the root of the derivation ends, no deeper than there are nodes, and comes to each leaf once. What it
comes to is what is pronounced, so the words are those of the sentence. -/
theorem exists_linearize_perm (hp : p.IsAssembled) (hsel : Selection.ofAssignment p.schema p.encoding a = .ok sel)
    (hcheck : sel.check = .ok ()) : ∃ d order, sel.derivation = .ok d ∧
      (∀ fuel, d.nodes.length ≤ fuel → d.linearize fuel = some order) ∧ order.Perm (List.range d.leaves.length) ∧
        d.pronounced = order.filterMap (fun l => (d.leaf? l).bind (·.form)) ∧ d.pronounced.Perm p.schema.words := by
  have hf := hp.isFilled hsel
  have hd := hp.isDerivation hsel hcheck
  obtain ⟨d, hder⟩ := hd.exists_derivation hf
  refine ⟨d, d.order, hder, fun fuel hfuel => Selection.linearize_eq_order hf hd hder hfuel,
    Selection.perm_order hf hd hder, rfl, ?_⟩
  rw [← (Encoding.ofAssignment_eq_ok hsel).1]
  exact Selection.perm_pronounced hf hd hder

end Problem

/-- A covert head takes up an auxiliary and attracts a noun phrase of two words. -/
def Grammar.question : Grammar where
  lexicon := ⟨[
    ⟨"C", [⟨"T", .selector, true⟩, ⟨"wh", .licensor, false⟩, ⟨"C", .category, false⟩], none, none, by decide, isForm_none⟩,
    ⟨"will", [⟨"V", .selector, false⟩, ⟨"T", .selectee, false⟩], some "will", none, by decide, by decide +kernel⟩,
    ⟨"fade", [⟨"Nominal", .selector, false⟩, ⟨"V", .selectee, false⟩], some "fade", none, by decide, by decide +kernel⟩,
    ⟨"what", [⟨"N", .selector, false⟩, ⟨"Nominal", .selectee, false⟩, ⟨"wh", .licensee, false⟩], some "what", none,
      by decide, by decide +kernel⟩,
    ⟨"song", [⟨"N", .selectee, false⟩], some "song", none, isFeatureSequence_selectee "N", by decide +kernel⟩],
    by decide, by decide⟩
  options := { bounds := ⟨1, 1, 1⟩ }
  locality := .unconstrained

namespace Problem

/-- The leaves are numbered from the covert head down. The walk comes to the noun phrase first, then to the auxiliary
right before the covert head that takes it up, and last to the verb. -/
theorem exists_linearize_question : ∃ p sel d,
    Grammar.question.prepare { sentence := some ["will", "fade", "what", "song"] } = .ok p ∧ p.IsAssembled ∧
      (Selection.ofAssignment p.schema p.encoding (fun _ => true) = .ok sel ∧ sel.check = .ok ()) ∧
        sel.derivation = .ok d ∧ (∀ fuel, d.nodes.length ≤ fuel → d.linearize fuel = some [3, 4, 1, 0, 2]) ∧
          d.pronounced.Perm ["will", "fade", "what", "song"] := by
  have hall : (Grammar.question.prepare { sentence := some ["will", "fade", "what", "song"] }).toOption.any (fun p =>
      (Selection.ofAssignment p.schema p.encoding fun _ => true).toOption.any fun sel =>
        (sel.check.toOption.any fun _ => true) && sel.derivation.toOption.any fun d =>
          decide (p.schema.words = ["will", "fade", "what", "song"]) &&
            decide (d.linearize d.nodes.length = some [3, 4, 1, 0, 2])) = true := by
    decide +kernel
  obtain ⟨p, hp, h⟩ := Fallible.exists_of_any hall
  obtain ⟨sel, hsel, h⟩ := Fallible.exists_of_any h
  obtain ⟨hcheck, h⟩ := Bool.and_eq_true_iff.1 h
  obtain ⟨_, hcheck, _⟩ := Fallible.exists_of_any hcheck
  obtain ⟨d, hd, h⟩ := Fallible.exists_of_any h
  obtain ⟨hwords, hlin⟩ := Bool.and_eq_true_iff.1 h
  have hassembled := isAssembled_of_prepare hp
  obtain ⟨d', order, hd', hwalk, _, _, hperm⟩ := exists_linearize_perm hassembled hsel hcheck
  obtain rfl : d = d' := Except.ok.inj (hd.symm.trans hd')
  obtain rfl := Option.some.inj ((hwalk _ (Nat.le_refl _)).symm.trans (of_decide_eq_true hlin))
  exact ⟨p, sel, d, hp, hassembled, ⟨hsel, hcheck⟩, hd, hwalk, of_decide_eq_true hwords ▸ hperm⟩

end Problem

end MinimalistGrammar
