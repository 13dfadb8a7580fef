import MinimalistGrammar.Proofs.Lexicon.Loading
import MinimalistGrammar.Proofs.Parse.Bounds
import MinimalistGrammar.Proofs.Parse.ShortestMove

/-!
Derivations depend on which items there are, not on the order in which a lexicon declares them, and further items take
none away.
-/

namespace MinimalistGrammar

namespace Lexicon

variable {lex lex' : Lexicon} {entries : Entries}

theorem subset_of_extend (h : lex.extend entries = .ok lex') : lex.items ⊆ lex'.items := by
  obtain ⟨items, _, he⟩ := extend_eq_ok_iff.1 h
  rw [he]
  exact List.subset_append_left _ _

end Lexicon

namespace Grammar

/-- The grammar of a lexicon under the locality condition of its options. -/
def configured (lex : Lexicon) (options : ParseOptions) : Grammar := { lexicon := lex, options }

variable {lex lex' : Lexicon} {options : ParseOptions} {c : Condition} {bounds bounds' : Bounds} {d : Derivation}

theorem derives_of_items (hitems : lex.items ⊆ lex'.items) (hle : bounds ≤ bounds')
    (h : (within lex options bounds).Derives c d) : (within lex' options bounds').Derives c d := by
  obtain ⟨p, a, hp, ha, hd⟩ := h
  have hp := isPrepared_of_prepare hp
  obtain ⟨sel, hsel, _⟩ := exists_selects options.locality.expresses_policy.onlyAdds hp ha
  obtain ⟨_, ⟨hlex, _, hbounds⟩, _⟩ := Schema.build_eq_ok_iff.1 hp.schema
  obtain ⟨f, hf, hc⟩ := hsel.isDerivation.hasRoot.isTop_root
  have hs := hsel.isOffered.schema
  have hroom : Schema.HasRoom lex' p.schema.words bounds' := by
    rw [← hs]
    exact Schema.hasRoom_of_category (hsel.isFilled hp) (by rwa [hs, hlex]) (by rwa [hs, hbounds]) hf hc
  obtain ⟨p', hp'⟩ := hp.exists_prepare_of_items hitems hroom
  obtain ⟨a', ha', hd'⟩ := hp.exists_extract_of_items hitems hle (isPrepared_of_prepare hp') ha hd
  exact ⟨p', a', hp', ha', hd'⟩

theorem configured_of_extend {entries : Entries} {g' : Grammar} (h : (configured lex options).extend entries = .ok g') :
    ∃ lex', lex.items ⊆ lex'.items ∧ g' = configured lex' options := by
  rw [extend] at h
  split at h
  · exact ⟨lex, List.Subset.refl _, (Except.ok.inj h).symm⟩
  · obtain ⟨lex', hlex', h⟩ := Fallible.bind_eq_ok.1 h
    exact ⟨lex', Lexicon.subset_of_extend hlex', (Except.ok.inj h).symm⟩

/-- Each derivation with some items is one with more, so the order of the items makes no difference, and extending a
grammar loses nothing. -/
theorem derives_of_subset (lex : Lexicon) (options : ParseOptions) (c : Condition) :
    (∀ lex' : Lexicon, lex.items ⊆ lex'.items → ∀ d, (configured lex options).Derives c d →
      (configured lex' options).Derives c d) ∧
    (∀ lex' : Lexicon, lex'.items.Perm lex.items → ∀ d, (configured lex' options).Derives c d ↔
      (configured lex options).Derives c d) ∧
    ∀ entries g', (configured lex options).extend entries = .ok g' → ∀ d, (configured lex options).Derives c d →
      g'.Derives c d := by
  have hle : options.bounds ≤ options.bounds := ⟨Nat.le_refl _, Nat.le_refl _, Nat.le_refl _⟩
  have mono : ∀ {lex₁ lex₂ : Lexicon}, lex₁.items ⊆ lex₂.items → ∀ d, (configured lex₁ options).Derives c d →
      (configured lex₂ options).Derives c d := fun hitems _ hd => derives_of_items hitems hle hd
  refine ⟨fun lex' hitems => mono hitems, fun lex' hperm d => ⟨mono hperm.subset d, mono hperm.symm.subset d⟩, ?_⟩
  intro entries g' hg' d hd
  obtain ⟨lex', hitems, rfl⟩ := configured_of_extend hg'
  exact mono hitems d hd

/-- Two verbs, and two covert heads. -/
def twoVerbs : Lexicon := ⟨[
  ⟨"snows", [⟨"V", .selectee, false⟩], some "snows", none, isFeatureSequence_selectee "V", by decide +kernel⟩,
  ⟨"rains", [⟨"V", .selectee, false⟩], some "rains", none, isFeatureSequence_selectee "V", isForm_rains⟩,
  ⟨"T", [⟨"V", .selector, false⟩, ⟨"V", .selectee, false⟩], none, none, by decide, isForm_none⟩,
  ⟨"C", [⟨"V", .selector, false⟩, ⟨"C", .category, false⟩], none, none, isFeatureSequence_clause "V" "C", isForm_none⟩],
  by decide, by decide⟩

/-- Both items stand elsewhere among the others, and the covert one is no longer the first for its slot. -/
theorem derives_twoVerbs : clauseAndVerb.lexicon.items ⊆ twoVerbs.items ∧
    ∃ d, (configured clauseAndVerb.lexicon { bounds := ⟨1, 0, 0⟩ }).Derives verbAlone d ∧
      (configured twoVerbs { bounds := ⟨1, 0, 0⟩ }).Derives verbAlone d := by
  have hitems : clauseAndVerb.lexicon.items ⊆ twoVerbs.items := by decide
  have hall : ((configured clauseAndVerb.lexicon { bounds := ⟨1, 0, 0⟩ }).prepare verbAlone).toOption.any (fun p =>
      decide (p.formula.Holds (· ≠ 8)) && (p.extract (· ≠ 8)).toOption.any fun _ => true) = true := by decide +kernel
  obtain ⟨p, hp, h⟩ := Fallible.exists_of_any hall
  obtain ⟨hholds, hsome⟩ := Bool.and_eq_true_iff.1 h
  obtain ⟨d, hd, _⟩ := Fallible.exists_of_any hsome
  have hderives : (configured clauseAndVerb.lexicon { bounds := ⟨1, 0, 0⟩ }).Derives verbAlone d :=
    ⟨p, _, hp, of_decide_eq_true hholds, hd⟩
  exact ⟨hitems, d, hderives, (derives_of_subset _ _ _).1 twoVerbs hitems d hderives⟩

end Grammar

end MinimalistGrammar
