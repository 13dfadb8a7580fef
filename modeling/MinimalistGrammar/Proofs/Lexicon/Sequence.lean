import MinimalistGrammar.Lexicon.Basic
import Mathlib.Tactic.Common

/-!
The features of an item stand in three stretches: the triggers, then the selectee or category, then the
licensees. The place of the selectee or category tells which stretch an index falls in.
-/

namespace MinimalistGrammar

theorem isForm_none : IsForm none := nofun

theorem isFeatureSequence_selectee (name : String) : IsFeatureSequence [⟨name, .selectee, false⟩] :=
  ⟨List.cons_ne_nil _ _, rfl⟩

theorem isFeatureSequence_clause (name category : String) :
    IsFeatureSequence [⟨name, .selector, false⟩, ⟨category, .category, false⟩] :=
  ⟨List.cons_ne_nil _ _, rfl⟩

namespace Polarity

variable {p : Polarity}

theorem isTarget_of_isTrigger (h : p.isTrigger = true) : p.isTarget = false := by
  cases p with
  | selector => rfl
  | licensor => rfl
  | selectee => cases h
  | licensee => cases h
  | category => cases h

theorem isTrigger_of_isTarget (h : p.isTarget = true) : p.isTrigger = false := by
  cases ht : p.isTrigger with
  | false => rfl
  | true =>
    rw [isTarget_of_isTrigger ht] at h
    cases h

theorem ne_category_of_isTrigger (h : p.isTrigger = true) : p ≠ .category := by
  rintro rfl
  cases h

theorem ne_category_of_isTarget (h : p.isTarget = true) : p ≠ .category := by
  rintro rfl
  cases h

theorem eq_selectee_of_isTarget (h : p.isTarget = true) (hl : p ≠ .licensee) : p = .selectee := by
  cases p <;> simp_all [isTarget]

theorem isTarget_of_ne_category (ht : p.isTrigger = false) (hc : p ≠ .category) : p.isTarget = true := by
  cases p with
  | selector => cases ht
  | licensor => cases ht
  | selectee => rfl
  | licensee => rfl
  | category => exact absurd rfl hc

end Polarity

section Sequence

variable {fs : List Feature} {f : Feature} {initial : Bool}

theorem movesHead_of_no_fault {stage : SequenceStage} (h : sequenceFault initial stage (f :: fs) = none)
    (hm : f.movesHead = true) : initial = true ∧ f.polarity = .selector := by
  cases initial <;> cases hp : f.polarity <;> simp [sequenceFault, hm, hp] at h ⊢

theorem licensees_of_no_fault (h : sequenceFault false .licensees fs = none) :
    ∀ f ∈ fs, f.polarity = .licensee ∧ f.movesHead = false := by
  induction fs with
  | nil => simp
  | cons f fs ih =>
    have hm : f.movesHead = false := by
      by_contra hm
      have := (movesHead_of_no_fault h (by simpa using hm)).1
      contradiction
    have hp : f.polarity = .licensee := by
      cases hp : f.polarity <;> simp [sequenceFault, hm, hp] at h ⊢
    simp only [sequenceFault, hm, hp] at h
    exact List.forall_mem_cons.2 ⟨⟨hp, hm⟩, ih (by simpa using h)⟩

theorem nil_of_no_fault (h : sequenceFault false .complete fs = none) : fs = [] := by
  cases fs with
  | nil => rfl
  | cons f fs => cases hm : f.movesHead <;> cases hp : f.polarity <;> simp [sequenceFault, hm, hp] at h

/-- What a faultless sequence looks like. -/
structure Stretches (initial : Bool) (triggers : List Feature) (category : Feature)
    (licensees : List Feature) : Prop where
  isTrigger : ∀ f ∈ triggers, f.polarity.isTrigger = true
  initial_selector : initial = true → ∀ f ∈ triggers.head?, f.polarity = .selector
  movesHead : ∀ f ∈ (if initial then triggers.tail else triggers) ++ category :: licensees,
    f.movesHead = false
  category : category.polarity = .selectee ∨ category.polarity = .category ∧ licensees = []
  isLicensee : ∀ f ∈ licensees, f.polarity = .licensee

theorem Stretches.cons {triggers licensees : List Feature} {category : Feature}
    (h : Stretches false triggers category licensees) (ht : f.polarity.isTrigger = true)
    (hi : initial = true → f.polarity = .selector) (hm : f.movesHead = true → initial = true) :
    Stretches initial (f :: triggers) category licensees where
  isTrigger := List.forall_mem_cons.2 ⟨ht, h.isTrigger⟩
  initial_selector hinit g hg := by
    cases hg
    exact hi hinit
  movesHead := by
    cases initial with
    | true => simpa using h.movesHead
    | false => exact List.forall_mem_cons.2 ⟨by simpa using hm, by simpa using h.movesHead⟩
  category := h.category
  isLicensee := h.isLicensee

theorem stretches_nil {category : Feature} {licensees : List Feature}
    (hc : category.polarity = .selectee ∨ category.polarity = .category ∧ licensees = [])
    (hm : category.movesHead = false) (hl : ∀ f ∈ licensees, f.polarity = .licensee ∧ f.movesHead = false) :
    Stretches initial [] category licensees where
  isTrigger := by simp
  initial_selector := by simp
  movesHead := by
    cases initial <;> exact List.forall_mem_cons.2 ⟨hm, fun g hg => (hl g hg).2⟩
  category := hc
  isLicensee f hf := (hl f hf).1

theorem exists_stretches (h : sequenceFault initial .triggers fs = none) :
    ∃ triggers category licensees, fs = triggers ++ category :: licensees ∧
      Stretches initial triggers category licensees := by
  -- only the first feature of all may move a head, so the rest is read with the flag off
  induction fs generalizing initial with
  | nil => simp [sequenceFault] at h
  | cons f fs ih =>
    have hm : f.movesHead = true → initial = true ∧ f.polarity = .selector := movesHead_of_no_fault h
    have head : f.polarity ≠ .selector → f.movesHead = false := fun hp =>
      Bool.eq_false_iff.2 fun hf => hp (hm hf).2
    cases hp : f.polarity with
    | selector =>
      have hrest : sequenceFault false .triggers fs = none := by
        simp only [sequenceFault, hp] at h
        split at h
        · cases h
        · exact h
      obtain ⟨ts, c, ls, rfl, hs⟩ := ih hrest
      exact ⟨f :: ts, c, ls, rfl, hs.cons (by rw [hp]; rfl) (fun _ => hp) fun hf => (hm hf).1⟩
    | licensor =>
      have hf := head (by simp [hp])
      cases initial with
      | true => simp [sequenceFault, hp, hf] at h
      | false =>
        obtain ⟨ts, c, ls, rfl, hs⟩ := @ih false (by simpa [sequenceFault, hp, hf] using h)
        exact ⟨f :: ts, c, ls, rfl, hs.cons (by rw [hp]; rfl) (by simp) (by simp [hf])⟩
    | selectee =>
      have hf := head (by simp [hp])
      have hl : ∀ g ∈ fs, g.polarity = .licensee ∧ g.movesHead = false :=
        licensees_of_no_fault (by simpa [sequenceFault, hp, hf] using h)
      exact ⟨[], f, fs, rfl, stretches_nil (.inl hp) hf hl⟩
    | category =>
      have hf := head (by simp [hp])
      obtain rfl : fs = [] := nil_of_no_fault (by simpa [sequenceFault, hp, hf] using h)
      exact ⟨[], f, [], rfl, stretches_nil (.inr ⟨hp, rfl⟩) hf (by simp)⟩
    | licensee =>
      have hf := head (by simp [hp])
      simp [sequenceFault, hp, hf] at h

end Sequence

namespace Item

variable {item : Item} {i : Nat} {f : Feature} {label : String} {features : List Feature} {form meaning : Option String}

theorem ofFeatures_eq_ok_iff : ofFeatures label features form meaning = .ok item ↔
    item.label = label ∧ item.features = features ∧ item.form = form ∧ item.meaning = meaning := by
  constructor
  · intro h
    unfold ofFeatures at h
    split at h
    · split at h
      · cases h
        exact ⟨rfl, rfl, rfl, rfl⟩
      · split at h <;> cases h
    · cases h
  · rintro ⟨rfl, rfl, rfl, rfl⟩
    rw [ofFeatures, dif_pos item.isForm, dif_pos item.isFeatureSequence]

theorem exists_ofFeatures_eq_ok_iff :
    (∃ item, ofFeatures label features form meaning = .ok item) ↔ IsForm form ∧ IsFeatureSequence features := by
  constructor
  · rintro ⟨item, h⟩
    obtain ⟨_, rfl, rfl, _⟩ := ofFeatures_eq_ok_iff.1 h
    exact ⟨item.isForm, item.isFeatureSequence⟩
  · rintro ⟨hf, hs⟩
    exact ⟨⟨label, features, form, meaning, hs, hf⟩, ofFeatures_eq_ok_iff.2 ⟨rfl, rfl, rfl, rfl⟩⟩

theorem exists_features_eq (item : Item) :
    ∃ triggers category licensees, item.features = triggers ++ category :: licensees ∧
      Stretches true triggers category licensees ∧ item.categoryIndex = triggers.length := by
  obtain ⟨ts, c, ls, he, hs⟩ := exists_stretches item.isFeatureSequence.2
  refine ⟨ts, c, ls, he, hs, ?_⟩
  have hts : ∀ f ∈ ts, ¬(f.polarity = .selectee ∨ f.polarity = .category) := by
    intro f hf
    have := hs.isTrigger f hf
    cases hp : f.polarity <;> simp [hp, Polarity.isTrigger] at this ⊢
  have hc : c.polarity = .selectee ∨ c.polarity = .category := hs.category.imp id And.left
  rw [categoryIndex, he, List.findIdx_append, List.findIdx_eq_length_of_false (by simpa using hts)]
  rcases hc with hc | hc <;> simp [List.findIdx_cons, hc]

theorem categoryIndex_lt (item : Item) : item.categoryIndex < item.features.length := by
  obtain ⟨ts, c, ls, he, _, hi⟩ := item.exists_features_eq
  rw [he, hi, List.length_append, List.length_cons]
  omega

theorem lt_length_of_feature? (h : item.feature? i = some f) : i < item.features.length :=
  (List.getElem?_eq_some_iff.1 h).1

theorem exists_feature? (h : i < item.features.length) : ∃ f, item.feature? i = some f :=
  ⟨_, List.getElem?_eq_getElem h⟩

/-- Which stretch a feature stands in. -/
theorem polarity_cases (h : item.feature? i = some f) :
    (i < item.categoryIndex ∧ f.polarity.isTrigger = true) ∨
      (i = item.categoryIndex ∧ f.polarity = .selectee) ∨
      (i = item.categoryIndex ∧ f.polarity = .category ∧ item.features.length = i + 1) ∨
      (item.categoryIndex < i ∧ f.polarity = .licensee) := by
  obtain ⟨ts, c, ls, he, hs, hi⟩ := item.exists_features_eq
  rw [feature?, he] at h
  rw [hi]
  rcases Nat.lt_trichotomy i ts.length with hlt | heq | hgt
  · rw [List.getElem?_append_left hlt] at h
    exact .inl ⟨hlt, hs.isTrigger f (List.mem_of_getElem? h)⟩
  · subst heq
    rw [List.getElem?_append_right (Nat.le_refl _), Nat.sub_self, List.getElem?_cons_zero,
      Option.some.injEq] at h
    subst h
    rcases hs.category with hc | ⟨hc, hl⟩
    · exact .inr (.inl ⟨rfl, hc⟩)
    · refine .inr (.inr (.inl ⟨rfl, hc, ?_⟩))
      rw [he, hl, List.length_append, List.length_singleton]
  · obtain ⟨k, rfl⟩ := Nat.exists_eq_add_of_lt hgt
    rw [List.getElem?_append_right (by omega), show ts.length + k + 1 - ts.length = k + 1 by omega,
      List.getElem?_cons_succ] at h
    exact .inr (.inr (.inr ⟨hgt, hs.isLicensee f (List.mem_of_getElem? h)⟩))

theorem isTrigger_iff (h : item.feature? i = some f) :
    f.polarity.isTrigger = true ↔ i < item.categoryIndex := by
  rcases polarity_cases h with ⟨hi, hp⟩ | ⟨hi, hp⟩ | ⟨hi, hp, _⟩ | ⟨hi, hp⟩
  · exact ⟨fun _ => hi, fun _ => hp⟩
  · simp [hp, Polarity.isTrigger, hi]
  · simp [hp, Polarity.isTrigger, hi]
  · simp [hp, Polarity.isTrigger, Nat.le_of_lt hi]

theorem licensee_iff (h : item.feature? i = some f) : f.polarity = .licensee ↔ item.categoryIndex < i := by
  rcases polarity_cases h with ⟨hi, hp⟩ | ⟨hi, hp⟩ | ⟨hi, hp, _⟩ | ⟨hi, hp⟩
  · refine ⟨fun h => ?_, fun h => by omega⟩
    rw [h] at hp
    cases hp
  · simp [hp, hi]
  · simp [hp, hi]
  · exact ⟨fun _ => hi, fun _ => hp⟩

theorem eq_categoryIndex (h : item.feature? i = some f) (hp : f.polarity = .selectee) : i = item.categoryIndex := by
  have hle := Nat.le_of_not_lt (mt (licensee_iff h).2 (by rw [hp]; decide))
  have hge := Nat.le_of_not_lt (mt (isTrigger_iff h).2 (by rw [hp]; decide))
  exact Nat.le_antisymm hle hge

theorem length_of_category (h : item.feature? i = some f) (hp : f.polarity = .category) :
    item.features.length = i + 1 := by
  rcases polarity_cases h with ⟨_, hp'⟩ | ⟨_, hp'⟩ | ⟨_, _, hl⟩ | ⟨_, hp'⟩
  · rw [hp] at hp'
    cases hp'
  · rw [hp] at hp'
    cases hp'
  · exact hl
  · rw [hp] at hp'
    cases hp'

theorem ne_licensor_zero (h : item.feature? 0 = some f) : f.polarity ≠ .licensor := by
  obtain ⟨ts, c, ls, he, hs, _⟩ := item.exists_features_eq
  rw [feature?, he] at h
  intro hp
  cases ts with
  | nil =>
    cases h
    rcases hs.category with hc | ⟨hc, _⟩ <;> rw [hp] at hc <;> cases hc
  | cons t ts =>
    cases h
    have := hs.initial_selector rfl f rfl
    rw [hp] at this
    cases this

theorem movesHead_iff_first (h : item.feature? i = some f) (hm : f.movesHead = true) :
    i = 0 ∧ f.polarity = .selector := by
  obtain ⟨ts, c, ls, he, hs, _⟩ := item.exists_features_eq
  have hrest := hs.movesHead
  rw [if_pos rfl] at hrest
  rw [feature?, he] at h
  cases ts with
  | nil =>
    have hf : f ∈ c :: ls := List.mem_of_getElem? h
    rw [hrest f hf] at hm
    cases hm
  | cons t ts =>
    cases i with
    | zero =>
      cases h
      exact ⟨rfl, hs.initial_selector rfl f rfl⟩
    | succ i =>
      have hf : f ∈ ts ++ c :: ls := List.mem_of_getElem? h
      rw [hrest f hf] at hm
      cases hm

end Item

end MinimalistGrammar
