import MinimalistGrammar.Proofs.Parse.Completeness

/-!
Further items and wider bounds lose nothing: what can be parsed with some items within some bounds can be parsed with
more items within wider bounds, with the same derivations.
-/

namespace MinimalistGrammar

open MinimalistGrammar.Sat

section Room

variable {lex lex' : Lexicon} {words : List String} {bounds bounds' : Bounds} {s : Schema} {sel : Selection} {p : PointId}
  {f : Feature}

theorem Item.completesClause_of_category {item : Item} {i : Nat} (hi : item.feature? i = some f)
    (hc : f.polarity = .category) : item.completesClause = true := by
  have hlast : item.features.getLast? = some f := by
    rw [List.getLast?_eq_getElem?, Item.length_of_category hi hc]
    exact hi
  rw [Item.completesClause, hlast]
  exact decide_eq_true hc

namespace Schema

theorem HasRoom.mono (hle : bounds ≤ bounds') (h : HasRoom lex words bounds) : HasRoom lex words bounds' :=
  fun h0 => h (Nat.le_zero.1 (h0 ▸ (Bounds.le_iff.1 hle).1))

/-- Without covert items a word heads the derivation, so there is room for one. -/
theorem hasRoom_of_category (hf : sel.IsFilled) (hitems : sel.schema.lexicon.items ⊆ lex'.items)
    (hle : sel.schema.bounds ≤ bounds') (hp : sel.Carries p f) (hc : f.polarity = .category) :
    HasRoom lex' sel.schema.words bounds' := by
  intro h0 _
  obtain ⟨_, item, hi, hfeature⟩ := Selection.carries_iff.1 hp
  have hslot := hf.item_lt hi
  have hempty : sel.schema.bounds.emptyItems = 0 := Nat.le_zero.1 (h0 ▸ (Bounds.le_iff.1 hle).1)
  have hnone : covertCount sel.schema.lexicon sel.schema.bounds = 0 := by rw [covertCount, hempty, ite_self]
  have hword : sel.schema.slotOf p < sel.schema.words.length := by
    rwa [hf.built.slotCount_eq, hnone, Nat.add_zero] at hslot
  obtain ⟨hm, hform⟩ := (hf.built.mem_candidates hslot).1 (hf.mem_candidates _ _ hi)
  rw [List.getElem?_eq_getElem hword] at hform
  obtain ⟨c, hcand, rfl⟩ := List.mem_map.1 (Lexicon.mem_pronounced.2 ⟨hitems hm, hform⟩)
  refine List.any_eq_true.2 ⟨c, List.mem_flatten.2 ⟨_, List.mem_map_of_mem (List.getElem_mem hword), hcand⟩, ?_⟩
  exact Item.completesClause_of_category hfeature hc

theorem exists_build_of_items (hitems : lex.items ⊆ lex'.items) (hroom : HasRoom lex' words bounds')
    (h : build lex words bounds = .ok s) : ∃ s', build lex' words bounds' = .ok s' := by
  obtain ⟨_, ⟨rfl, rfl, rfl⟩, hb⟩ := build_eq_ok_iff.1 h
  refine ⟨⟨lex', s.words, bounds', (layOut 0 (specs lex' s.words bounds')).toArray,
    (pointsOf (layOut 0 (specs lex' s.words bounds'))).toArray⟩, build_eq_ok_iff.2 ⟨hroom, ⟨rfl, rfl, rfl⟩, rfl, rfl, ?_⟩⟩
  intro word hword
  obtain ⟨c, hc⟩ := List.exists_mem_of_ne_nil _ (hb.pronounced word hword)
  obtain ⟨hm, hform⟩ := Lexicon.mem_pronounced.1 (List.mem_map_of_mem hc)
  exact fun hnil => List.ne_nil_of_mem (Lexicon.mem_pronounced.2 ⟨hitems hm, hform⟩) (by rw [hnil]; rfl)

end Schema

end Room

namespace Grammar

/-- The grammar of a lexicon and options, with bounds of their own. -/
def within (lex : Lexicon) (options : ParseOptions) (bounds : Bounds) : Grammar where
  lexicon := lex
  options := { options with bounds }

variable {lex lex' : Lexicon} {options : ParseOptions} {c : Condition} {bounds bounds' : Bounds} {p p' : Problem}
  {a : Assignment} {d : Derivation}

theorem requirementsOf_congr {g g' : Grammar} {s s' : Schema} (hform : g'.form? c = g.form? c)
    (hwords : s'.words = s.words) : g'.requirementsOf c s' = g.requirementsOf c s := by
  rw [requirementsOf, requirementsOf, hform]
  split
  · rw [Requirement.ofLogicalForm_congr hwords]
  · rfl

theorem IsPrepared.exists_prepare_of_items (hitems : lex.items ⊆ lex'.items)
    (hp : (within lex options bounds).IsPrepared c p) (hroom : Schema.HasRoom lex' p.schema.words bounds') :
    ∃ p', (within lex' options bounds').prepare c = .ok p' := by
  obtain ⟨s', hs'⟩ := Schema.exists_build_of_items hitems hroom hp.schema
  obtain ⟨_, ⟨_, hwords, _⟩, _⟩ := Schema.build_eq_ok_iff.1 hs'
  have hrequirements : (within lex' options bounds').requirementsOf c s' = .ok p.requirements :=
    (requirementsOf_congr rfl hwords).trans hp.requirements
  obtain ⟨p', hp', _⟩ :=
    exists_prepare (g := within lex' options bounds') hp.valid hp.isConstrained hp.words hs' hrequirements
  exact ⟨p', hp'⟩

theorem exists_prepare_of_le (hle : bounds ≤ bounds') (hp : (within lex options bounds).prepare c = .ok p) :
    ∃ p', (within lex options bounds').prepare c = .ok p' := by
  have hp := isPrepared_of_prepare hp
  exact hp.exists_prepare_of_items (List.Subset.refl _) ((Schema.build_eq_ok_iff.1 hp.schema).1.mono hle)

/-- Every derivation of the narrower parse is one of the wider. -/
theorem IsPrepared.exists_extract_of_items (hitems : lex.items ⊆ lex'.items) (hle : bounds ≤ bounds')
    (hp : (within lex options bounds).IsPrepared c p) (hp' : (within lex' options bounds').IsPrepared c p')
    (ha : p.formula.Holds a) (hd : p.extract a = .ok d) : ∃ a', p'.formula.Holds a' ∧ p'.extract a' = .ok d := by
  have hpolicy := options.locality.expresses_policy
  obtain ⟨sel, h, hlocal, hsel⟩ := exists_selects_of_expresses (g := within lex options bounds) hpolicy hp ha
  obtain ⟨d', hder, hd'⟩ := h.extract hp hsel
  obtain rfl := Except.ok.inj (hd.symm.trans hd')
  obtain ⟨_, ⟨hlex, _, hbounds⟩, hb⟩ := Schema.build_eq_ok_iff.1 hp.schema
  obtain ⟨_, ⟨hlex', _, hbounds'⟩, hb'⟩ := Schema.build_eq_ok_iff.1 hp'.schema
  have hwords : p'.schema.words = p.schema.words := Except.ok.inj (hp'.words.symm.trans hp.words)
  have hs := h.isOffered.schema
  have ho : sel.IsOffered sel.schema := hs ▸ h.isOffered
  have hle' : sel.schema.bounds ≤ p'.schema.bounds := by rwa [hs, hbounds, hbounds']
  obtain ⟨_, hmov, hhead⟩ := Bounds.le_iff.1 hle'
  have hslots : sel.schema.EmbedsSlots p'.schema id := by
    rw [hs] at hle' ⊢
    exact Schema.embedsSlots_id hb hb' (by rwa [hlex, hlex']) hwords hle'.1
  have hemb := Selection.embeds_embed ho hslots
  have hderivation := hemb.isDerivation h.isDerivation hmov hhead
  have hreq : p'.requirements = p.requirements := by
    refine Except.ok.inj (hp'.requirements.symm.trans (Eq.trans ?_ hp.requirements))
    exact requirementsOf_congr (g := within lex options bounds) rfl hwords
  have hmeets : ∀ r ∈ p'.requirements, (sel.embed p'.schema id).meets r.demand = true := by
    intro r hr
    rw [hreq] at hr
    rw [hemb.meets_map h.isDerivation (hs ▸ hp.within_words r hr)]
    exact h.meets r hr
  -- The ranks of the items may have changed, so the covert slots are put in order again.
  obtain ⟨_, _, a', _, _, _, ha', hextract⟩ := hp'.exists_holds_of_isDerivation hpolicy (Selection.isOffered_embed ho hslots)
    hderivation (hemb.derivation_map h.isDerivation hderivation hder)
    (fun hlin => hemb.isInOrder h.isDerivation hderivation (h.isInOrder hlin)) hmeets fun hemb' =>
      hemb'.isLocal hderivation.toIsMatching (hemb.isLocal h.isDerivation.toIsMatching hlocal)
  exact ⟨a', ha', hextract⟩

/-- What can be set up within some bounds can be set up within wider ones, every derivation stays, and so does
satisfiability. -/
theorem exists_wider_parse (hle : bounds ≤ bounds') (hp : (within lex options bounds).prepare c = .ok p) :
    ∃ p', (within lex options bounds').prepare c = .ok p' ∧
      (∀ a d, p.formula.Holds a → p.extract a = .ok d → ∃ a', p'.formula.Holds a' ∧ p'.extract a' = .ok d) ∧
        ((∃ a, p.formula.Holds a) → ∃ a', p'.formula.Holds a') := by
  obtain ⟨p', hp'⟩ := exists_prepare_of_le hle hp
  have h := isPrepared_of_prepare hp
  have keeps : ∀ a d, p.formula.Holds a → p.extract a = .ok d → ∃ a', p'.formula.Holds a' ∧ p'.extract a' = .ok d :=
    fun a d ha hd => h.exists_extract_of_items (List.Subset.refl _) hle (isPrepared_of_prepare hp') ha hd
  refine ⟨p', hp', keeps, fun ⟨a, ha⟩ => ?_⟩
  obtain ⟨sel, hsel, hof⟩ := exists_selects options.locality.expresses_policy.onlyAdds h ha
  obtain ⟨d, _, hd⟩ := hsel.extract h hof
  obtain ⟨a', ha', _⟩ := keeps a d ha hd
  exact ⟨a', ha'⟩

/-- With a second covert slot, and room for a movement that nothing calls for. -/
theorem exists_wider_parse_verbAlone : (⟨1, 0, 0⟩ : Bounds) ≤ ⟨2, 1, 0⟩ ∧
    ∃ p p', (within clauseAndVerb.lexicon {} ⟨1, 0, 0⟩).prepare verbAlone = .ok p ∧
      (within clauseAndVerb.lexicon {} ⟨2, 1, 0⟩).prepare verbAlone = .ok p' ∧
        (∃ a d, p.formula.Holds a ∧ p.extract a = .ok d ∧ ∃ a', p'.formula.Holds a' ∧ p'.extract a' = .ok d) := by
  have hall : ((within clauseAndVerb.lexicon {} ⟨1, 0, 0⟩).prepare verbAlone).toOption.any (fun p =>
      decide (p.formula.Holds (· ≠ 8)) && (p.extract (· ≠ 8)).toOption.isSome) = true := by
    decide +kernel
  cases hp : (within clauseAndVerb.lexicon {} ⟨1, 0, 0⟩).prepare verbAlone with
  | error e =>
    rw [hp] at hall
    cases hall
  | ok p =>
    rw [hp] at hall
    obtain ⟨hholds, hsome⟩ := Bool.and_eq_true_iff.1 hall
    cases hd : p.extract (· ≠ 8) with
    | error e =>
      rw [hd] at hsome
      cases hsome
    | ok d =>
      have hle : (⟨1, 0, 0⟩ : Bounds) ≤ ⟨2, 1, 0⟩ := by decide
      obtain ⟨p', hp', hkeeps, _⟩ := exists_wider_parse hle hp
      exact ⟨hle, p, p', rfl, hp', _, d, of_decide_eq_true hholds, hd, hkeeps _ d (of_decide_eq_true hholds) hd⟩

end Grammar

end MinimalistGrammar
