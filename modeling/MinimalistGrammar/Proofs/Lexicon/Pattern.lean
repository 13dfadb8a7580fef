import MinimalistGrammar.Proofs.Lexicon.Sequence
import Mathlib.Computability.RegularExpressions

/-!
The sequences of features that items may have are a regular language of polarities, with conditions on the first feature
and on the attraction of heads. Items are built from just these sequences, and the places that they name divide a sequence
as the expression does.
-/

namespace MinimalistGrammar

namespace Polarity

open RegularExpression

/-- `(selector | licensor)* (selectee licensee* | category)`. -/
def sequences : RegularExpression Polarity :=
  star (char selector + char licensor) * (char selectee * star (char licensee) + char category)

section Star

variable {α : Type} {P : RegularExpression α} {p : α → Prop} {w : List α}

theorem mem_matches'_star_iff (h : ∀ v, v ∈ P.matches' ↔ ∃ x, v = [x] ∧ p x) : w ∈ P.star.matches' ↔ ∀ x ∈ w, p x := by
  rw [matches'_star, Language.mem_kstar]
  constructor
  · rintro ⟨parts, rfl, hparts⟩ x hx
    obtain ⟨part, hpart, hx⟩ := List.mem_flatten.1 hx
    obtain ⟨y, rfl, hy⟩ := (h part).1 (hparts part hpart)
    exact List.mem_singleton.1 hx ▸ hy
  · intro hw
    refine ⟨w.map ([·]), (List.flatMap_singleton' w).symm, fun v hv => ?_⟩
    obtain ⟨x, hx, rfl⟩ := List.mem_map.1 hv
    exact (h [x]).2 ⟨x, rfl, hw x hx⟩

theorem mem_matches'_char_iff {x : α} : w ∈ (char x).matches' ↔ ∃ y, w = [y] ∧ y = x := by
  rw [matches'_char]
  exact ⟨fun h => ⟨x, h, rfl⟩, fun ⟨_, h, hy⟩ => hy ▸ h⟩

end Star

theorem mem_triggers_iff {w : List Polarity} :
    w ∈ (char selector + char licensor).matches' ↔ ∃ p, w = [p] ∧ p.isTrigger = true := by
  rw [matches'_add, Language.mem_add, mem_matches'_char_iff, mem_matches'_char_iff]
  constructor
  · rintro (⟨p, rfl, rfl⟩ | ⟨p, rfl, rfl⟩)
    · exact ⟨_, rfl, rfl⟩
    · exact ⟨_, rfl, rfl⟩
  · rintro ⟨p, rfl, hp⟩
    cases p with
    | selector => exact .inl ⟨_, rfl, rfl⟩
    | licensor => exact .inr ⟨_, rfl, rfl⟩
    | selectee => cases hp
    | licensee => cases hp
    | category => cases hp

theorem mem_sequences_iff {w : List Polarity} : w ∈ sequences.matches' ↔
    ∃ ts p ls, w = ts ++ p :: ls ∧ (∀ t ∈ ts, t.isTrigger = true) ∧ (∀ l ∈ ls, l = licensee) ∧
      (p = selectee ∨ p = category ∧ ls = []) := by
  have hcategory : ∀ v, v ∈ (char selectee * star (char licensee) + char category).matches' ↔
      ∃ p ls, v = p :: ls ∧ (∀ l ∈ ls, l = licensee) ∧ (p = selectee ∨ p = category ∧ ls = []) := by
    intro v
    rw [matches'_add, Language.mem_add, matches'_mul, Language.mem_mul, mem_matches'_char_iff]
    simp only [mem_matches'_char_iff, mem_matches'_star_iff fun _ => mem_matches'_char_iff]
    constructor
    · rintro (⟨_, ⟨p, rfl, rfl⟩, ls, hls, rfl⟩ | ⟨p, rfl, rfl⟩)
      · exact ⟨_, ls, rfl, hls, .inl rfl⟩
      · exact ⟨_, [], rfl, by simp, .inr ⟨rfl, rfl⟩⟩
    · rintro ⟨p, ls, rfl, hls, rfl | ⟨rfl, rfl⟩⟩
      · exact .inl ⟨_, ⟨_, rfl, rfl⟩, ls, hls, rfl⟩
      · exact .inr ⟨_, rfl, rfl⟩
  rw [sequences, matches'_mul, Language.mem_mul]
  simp only [hcategory, mem_matches'_star_iff fun _ => mem_triggers_iff]
  constructor
  · rintro ⟨ts, hts, _, ⟨p, ls, rfl, hp⟩, rfl⟩
    exact ⟨ts, p, ls, rfl, hts, hp⟩
  · rintro ⟨ts, p, ls, rfl, hts, hp⟩
    exact ⟨ts, hts, _, ⟨p, ls, rfl, hp⟩, rfl⟩

end Polarity

section Sequence

variable {fs ts ls : List Feature} {f c : Feature} {initial : Bool}

theorem no_fault_licensees (h : ∀ f ∈ ls, f.polarity = .licensee ∧ f.movesHead = false) :
    sequenceFault false .licensees ls = none := by
  induction ls with
  | nil => rfl
  | cons f ls ih =>
    obtain ⟨⟨hp, hm⟩, hls⟩ := List.forall_mem_cons.1 h
    simpa [sequenceFault, hp, hm] using ih hls

theorem Stretches.no_fault (h : Stretches initial ts c ls) :
    sequenceFault initial .triggers (ts ++ c :: ls) = none := by
  induction ts generalizing initial with
  | nil =>
    have hm : c.movesHead = false ∧ ∀ f ∈ ls, f.movesHead = false := by
      have := h.movesHead
      cases initial <;> simpa using this
    rcases h.category with hc | ⟨hc, rfl⟩
    · have hls := no_fault_licensees fun f hf => ⟨h.isLicensee f hf, hm.2 f hf⟩
      simpa [sequenceFault, hc, hm.1] using hls
    · simp [sequenceFault, hc, hm.1]
  | cons t ts ih =>
    obtain ⟨ht, hts⟩ := List.forall_mem_cons.1 h.isTrigger
    have hnot : false = true → ∀ f ∈ ts.head?, f.polarity = .selector := fun h => by cases h
    cases initial with
    | true =>
      have hp : t.polarity = .selector := h.initial_selector rfl t rfl
      have hrest : Stretches false ts c ls := ⟨hts, hnot, h.movesHead, h.category, h.isLicensee⟩
      simpa [sequenceFault, hp] using ih hrest
    | false =>
      obtain ⟨hm, hmoves⟩ := List.forall_mem_cons.1 h.movesHead
      have hrest : Stretches false ts c ls := ⟨hts, hnot, hmoves, h.category, h.isLicensee⟩
      cases hp : t.polarity with
      | selector => simpa [sequenceFault, hp, hm] using ih hrest
      | licensor => simpa [sequenceFault, hp, hm] using ih hrest
      | selectee => simp [hp, Polarity.isTrigger] at ht
      | licensee => simp [hp, Polarity.isTrigger] at ht
      | category => simp [hp, Polarity.isTrigger] at ht

theorem no_fault_iff : sequenceFault true .triggers fs = none ↔
    ∃ ts c ls, fs = ts ++ c :: ls ∧ Stretches true ts c ls :=
  ⟨exists_stretches, fun ⟨_, _, _, he, h⟩ => he ▸ h.no_fault⟩

/-- No feature attracts a head, but for a selector in front. -/
def AttractsOnlyFirst (fs : List Feature) : Prop :=
  ∀ i f, fs[i]? = some f → f.movesHead = true → i = 0 ∧ f.polarity = .selector

theorem attractsOnlyFirst_cons : AttractsOnlyFirst (f :: fs) ↔
    (f.movesHead = true → f.polarity = .selector) ∧ ∀ g ∈ fs, g.movesHead = false := by
  constructor
  · intro h
    refine ⟨fun hm => (h 0 f rfl hm).2, fun g hg => Bool.eq_false_iff.2 fun hm => ?_⟩
    obtain ⟨i, hi⟩ := List.mem_iff_getElem?.1 hg
    have := (h (i + 1) g hi hm).1
    omega
  · rintro ⟨hf, hfs⟩ i g hi hm
    cases i with
    | zero =>
      cases hi
      exact ⟨rfl, hf hm⟩
    | succ i =>
      rw [hfs g (List.mem_of_getElem? hi)] at hm
      cases hm

theorem stretches_iff : Stretches true ts c ls ↔
    (∀ p ∈ ts.map (·.polarity), p.isTrigger = true) ∧ (∀ p ∈ ls.map (·.polarity), p = .licensee) ∧
      (c.polarity = .selectee ∨ c.polarity = .category ∧ ls.map (·.polarity) = []) ∧
        (∀ f ∈ (ts ++ c :: ls).head?, f.polarity ≠ .licensor) ∧ AttractsOnlyFirst (ts ++ c :: ls) := by
  simp only [List.forall_mem_map, List.map_eq_nil_iff]
  have hcne : (c.polarity = .selectee ∨ c.polarity = .category ∧ ls = []) →
      c.polarity ≠ .licensor ∧ c.polarity ≠ .selector := by
    rintro (hc | ⟨hc, _⟩) <;> simp [hc]
  cases ts with
  | nil =>
    rw [List.nil_append, attractsOnlyFirst_cons]
    constructor
    · intro h
      obtain ⟨hm, hls⟩ := List.forall_mem_cons.1 h.movesHead
      refine ⟨h.isTrigger, h.isLicensee, h.category, fun f hf => ?_, fun hm' => ?_, hls⟩
      · obtain rfl : c = f := Option.some.inj hf
        exact (hcne h.category).1
      · rw [hm] at hm'
        cases hm'
    · rintro ⟨ht, hl, hc, _, hm, hls⟩
      have hcm : c.movesHead = false := Bool.eq_false_iff.2 fun h => (hcne hc).2 (hm h)
      exact ⟨ht, nofun, List.forall_mem_cons.2 ⟨hcm, hls⟩, hc, hl⟩
  | cons t ts =>
    rw [List.cons_append, attractsOnlyFirst_cons]
    constructor
    · intro h
      have hp : t.polarity = .selector := h.initial_selector rfl t rfl
      refine ⟨h.isTrigger, h.isLicensee, h.category, fun f hf => ?_, fun _ => hp, h.movesHead⟩
      obtain rfl : t = f := Option.some.inj hf
      simp [hp]
    · rintro ⟨ht, hl, hc, hfirst, _, hm⟩
      refine ⟨ht, fun _ f hf => ?_, hm, hc, hl⟩
      obtain rfl : t = f := Option.some.inj hf
      have htrigger := ht t (.head _)
      have hne := hfirst t rfl
      cases hp : t.polarity <;> simp [hp, Polarity.isTrigger] at htrigger hne ⊢

theorem isFeatureSequence_iff : IsFeatureSequence fs ↔ fs.map (·.polarity) ∈ Polarity.sequences.matches' ∧
    (∀ f ∈ fs.head?, f.polarity ≠ .licensor) ∧ AttractsOnlyFirst fs := by
  rw [Polarity.mem_sequences_iff]
  constructor
  · rintro ⟨_, h⟩
    obtain ⟨ts, c, ls, rfl, hs⟩ := no_fault_iff.1 h
    obtain ⟨ht, hl, hc, hrest⟩ := stretches_iff.1 hs
    exact ⟨⟨_, _, _, List.map_append, ht, hl, hc⟩, hrest⟩
  · rintro ⟨⟨tps, p, lps, he, ht, hl, hc⟩, hrest⟩
    obtain ⟨ts, tail, rfl, rfl, htail⟩ := List.map_eq_append_iff.1 he
    obtain ⟨c, ls, rfl, rfl, rfl⟩ := List.map_eq_cons_iff.1 htail
    exact ⟨by simp, no_fault_iff.2 ⟨ts, c, ls, rfl, stretches_iff.2 ⟨ht, hl, hc, hrest⟩⟩⟩

end Sequence

namespace Item

variable {label : String} {features : List Feature} {form meaning : Option String} {item : Item}

theorem isForm_iff : IsForm form ↔ ∀ s ∈ form, ∃ c ∈ s.toList, Text.isBlank c = false := by
  simp [IsForm, Text.isBlankText]

theorem exists_stretches_of_item (item : Item) : ∃ triggers c licensees,
    item.features = triggers ++ c :: licensees ∧ Stretches true triggers c licensees ∧
      triggers.length = item.categoryIndex ∧ licensees.length = item.licenseeCount ∧
        (item.completesClause = true ↔ c.polarity = .category) := by
  obtain ⟨ts, c, ls, he, hs, hi⟩ := item.exists_features_eq
  have hts : ts.countP (·.polarity = .licensee) = 0 := List.countP_eq_zero.2 fun f hf => by
    have := hs.isTrigger f hf
    cases hp : f.polarity <;> simp [hp, Polarity.isTrigger] at this ⊢
  have hls : ls.countP (·.polarity = .licensee) = ls.length := List.countP_eq_length.2 fun f hf => by
    simp [hs.isLicensee f hf]
  have hc : c.polarity ≠ .licensee := by rcases hs.category with hc | ⟨hc, _⟩ <;> simp [hc]
  refine ⟨ts, c, ls, he, hs, hi.symm, ?_, ?_⟩
  · rw [licenseeCount, he, List.countP_append, List.countP_cons_of_neg (by simpa using hc), hts, hls, Nat.zero_add]
  · rw [completesClause, he, List.getLast?_append_cons]
    rcases hs.category with hc | ⟨hc, rfl⟩
    · have hne : ∀ f ∈ (c :: ls).getLast?, f.polarity ≠ .category := by
        intro f hf
        rcases List.mem_cons.1 (List.mem_of_getLast? hf) with rfl | hf
        · simp [hc]
        · simp [hs.isLicensee f hf]
      simpa [hc, Option.any_eq_true] using hne
    · simp [hc]

/-- Items are built from the sequences of the expression that begin with no licensor and in which only a selector in front
attracts a head, under forms that are not blank. The triggers of an item stand before the place of its selectee or
category, and its licensees after it; a category comes last, and tells the items that complete a clause. -/
theorem exists_ofFeatures_iff_and_features_eq (label : String) (features : List Feature) (form meaning : Option String) :
    ((∃ item, ofFeatures label features form meaning = .ok item) ↔
      (∀ s ∈ form, ∃ c ∈ s.toList, Text.isBlank c = false) ∧
        features.map (·.polarity) ∈ Polarity.sequences.matches' ∧
          (∀ f ∈ features.head?, f.polarity ≠ .licensor) ∧ AttractsOnlyFirst features) ∧
    ∀ item, ofFeatures label features form meaning = .ok item → ∃ triggers c licensees,
      features = triggers ++ c :: licensees ∧ item.features = features ∧
        triggers.length = item.categoryIndex ∧ (∀ f ∈ triggers, f.polarity.isTrigger = true) ∧
          (c.polarity = .selectee ∨ c.polarity = .category) ∧
            licensees.length = item.licenseeCount ∧ (∀ f ∈ licensees, f.polarity = .licensee) ∧
              (item.completesClause = true ↔ c.polarity = .category) ∧ (c.polarity = .category → licensees = []) := by
  refine ⟨?_, fun item h => ?_⟩
  · rw [exists_ofFeatures_eq_ok_iff, isForm_iff, isFeatureSequence_iff]
  · obtain ⟨_, rfl, _, _⟩ := ofFeatures_eq_ok_iff.1 h
    obtain ⟨triggers, c, licensees, he, hs, hi, hn, hc⟩ := item.exists_stretches_of_item
    refine ⟨triggers, c, licensees, he, rfl, hi, hs.isTrigger, hs.category.imp_right And.left, hn, hs.isLicensee, hc, ?_⟩
    intro hp
    rcases hs.category with hc | ⟨_, hl⟩
    · rw [hc] at hp
      cases hp
    · exact hl

/-- A head that attracts another one, with licensees of its own. -/
theorem exists_ofFeatures_attractingHead :
    let features : List Feature := [⟨"V", .selector, true⟩, ⟨"k", .licensor, false⟩, ⟨"D", .selector, false⟩,
      ⟨"v", .selectee, false⟩, ⟨"k", .licensee, false⟩, ⟨"wh", .licensee, false⟩]
    (features.map (·.polarity) ∈ Polarity.sequences.matches' ∧ (∀ f ∈ features.head?, f.polarity ≠ .licensor) ∧
      AttractsOnlyFirst features) ∧
    ∃ item, ofFeatures "v" features none none = .ok item ∧ item.categoryIndex = 3 ∧ item.licenseeCount = 2 ∧
      item.completesClause = false := by
  intro features
  have hmatch : features.map (·.polarity) ∈ Polarity.sequences.matches' := by decide
  have hattracts : AttractsOnlyFirst features := attractsOnlyFirst_cons.2 ⟨fun _ => rfl, by decide⟩
  obtain ⟨hiff, hshape⟩ := exists_ofFeatures_iff_and_features_eq "v" features none none
  obtain ⟨item, hitem⟩ := hiff.2 ⟨nofun, hmatch, by decide, hattracts⟩
  obtain ⟨_, _, _, _, hfeatures, _⟩ := hshape item hitem
  refine ⟨⟨hmatch, by decide, hattracts⟩, item, hitem, ?_⟩
  rw [categoryIndex, licenseeCount, completesClause, hfeatures]
  decide

end Item

end MinimalistGrammar
