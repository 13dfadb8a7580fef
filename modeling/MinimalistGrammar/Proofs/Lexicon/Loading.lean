import MinimalistGrammar.Proofs.Fallible
import MinimalistGrammar.Proofs.Lexicon.Sequence
import Mathlib.Data.List.Nodup

/-!
Loading a lexicon at once or in steps. Entries are taken one after the other, and counterparts are looked for at the end, so
that a lexicon with further entries is the lexicon of all entries, and is refused for the same reason. It is not refused
just if the labels are distinct, each entry makes an item, and all names that need a counterpart have one.
-/

namespace MinimalistGrammar

/-- Selectors have selectees of their names, and licensors and licensees each other. -/
structure HasCounterparts (features : List Feature) : Prop where
  selector : ∀ f ∈ features, f.polarity = .selector → ∃ g ∈ features, g.polarity = .selectee ∧ g.name = f.name
  licensor : ∀ f ∈ features, f.polarity = .licensor → ∃ g ∈ features, g.polarity = .licensee ∧ g.name = f.name
  licensee : ∀ f ∈ features, f.polarity = .licensee → ∃ g ∈ features, g.polarity = .licensor ∧ g.name = f.name

theorem hasCounterparts_iff {features : List Feature} :
    HasCounterparts features ↔ ∀ f ∈ features, f.hasCounterpart features = true := by
  constructor
  · intro h f hf
    cases hp : f.polarity with
    | selector => simpa [Feature.hasCounterpart, hp] using h.selector f hf hp
    | licensor => simpa [Feature.hasCounterpart, hp] using h.licensor f hf hp
    | licensee => simpa [Feature.hasCounterpart, hp] using h.licensee f hf hp
    | selectee => simp [Feature.hasCounterpart, hp]
    | category => simp [Feature.hasCounterpart, hp]
  · intro h
    refine ⟨fun f hf hp => ?_, fun f hf hp => ?_, fun f hf hp => ?_⟩ <;>
      simpa [Feature.hasCounterpart, hp] using h f hf

theorem missingCounterpart_eq_none_iff {items : List Item} :
    missingCounterpart items = none ↔ HasCounterparts (items.flatMap (·.features)) := by
  rw [hasCounterparts_iff, missingCounterpart, List.findSome?_eq_none_iff]
  simp only [Option.map_eq_none_iff, List.find?_eq_none, List.mem_flatMap, forall_exists_index, and_imp,
    Bool.not_eq_true', Bool.not_eq_false]
  exact ⟨fun h f item hi hf => h item hi f hf, fun h item hi f hf => h f item hi hf⟩

namespace Entry

/-- The item that an entry describes under its label. -/
def Builds (entry : String × Entry) (item : Item) : Prop :=
  Item.ofFeatures entry.1 entry.2.features entry.2.form entry.2.meaning = .ok item

variable {entry : String × Entry} {item : Item} {entries : Entries} {items : List Item}

theorem Builds.label_eq (h : Builds entry item) : item.label = entry.1 := (Item.ofFeatures_eq_ok_iff.1 h).1

theorem Builds.features_eq (h : Builds entry item) : item.features = entry.2.features :=
  (Item.ofFeatures_eq_ok_iff.1 h).2.1

theorem labels_eq (h : List.Forall₂ Builds entries items) : items.map (·.label) = entries.map (·.1) := by
  induction h with
  | nil => rfl
  | cons h _ ih => rw [List.map_cons, List.map_cons, h.label_eq, ih]

theorem features_eq (h : List.Forall₂ Builds entries items) :
    items.flatMap (·.features) = entries.flatMap (·.2.features) := by
  induction h with
  | nil => rfl
  | cons h _ ih => rw [List.flatMap_cons, List.flatMap_cons, h.features_eq, ih]

theorem exists_items (h : ∀ e ∈ entries, ∃ item, Builds e item) : ∃ items, List.Forall₂ Builds entries items := by
  induction entries with
  | nil => exact ⟨[], .nil⟩
  | cons e rest ih =>
    obtain ⟨⟨item, hitem⟩, hrest⟩ := List.forall_mem_cons.1 h
    obtain ⟨items, hitems⟩ := ih hrest
    exact ⟨item :: items, .cons hitem hitems⟩

theorem exists_of_mem (h : List.Forall₂ Builds entries items) : ∀ e ∈ entries, ∃ item, Builds e item := by
  induction h with
  | nil => exact fun _ he => by cases he
  | cons h _ ih => exact List.forall_mem_cons.2 ⟨⟨_, h⟩, ih⟩

end Entry

namespace Lexicon

open Entry

variable {lex lex₁ lex₂ : Lexicon} {entries entries₁ entries₂ : Entries} {items : List Item} {item : Item}

namespace Draft

variable {d d' : Draft}

theorem push_eq_ok_iff : d.push item = .ok d' ↔ d'.val = d.val ++ [item] := by
  rw [push]
  split
  · rename_i hmem
    refine ⟨fun h => (by cases h), fun h => ?_⟩
    have hnodup := d'.property
    rw [h, List.map_append, List.nodup_append] at hnodup
    exact absurd rfl (hnodup.2.2 _ hmem _ (.head _))
  · rw [Except.ok.injEq]
    exact ⟨fun h => h ▸ rfl, fun h => Subtype.ext h.symm⟩

theorem pushAll_eq_ok_iff : d.pushAll items = .ok d' ↔ d'.val = d.val ++ items := by
  induction items generalizing d with
  | nil =>
    rw [pushAll, Except.ok.injEq, List.append_nil]
    exact ⟨fun h => h ▸ rfl, fun h => Subtype.ext h.symm⟩
  | cons item items ih =>
    rw [pushAll, Fallible.bind_eq_ok]
    simp only [push_eq_ok_iff, ih]
    constructor
    · rintro ⟨d₁, h₁, h⟩
      rw [h, h₁, List.append_assoc, List.singleton_append]
    · intro h
      have hnodup : ((d.val ++ [item]).map (·.label)).Nodup := by
        have := d'.property
        rw [h, List.append_cons, List.map_append] at this
        exact this.of_append_left
      exact ⟨⟨_, hnodup⟩, rfl, by rw [h, List.append_cons]⟩

theorem pushEntries_eq_ok_iff : d.pushEntries entries = .ok d' ↔
    ∃ items, List.Forall₂ Builds entries items ∧ d.pushAll items = .ok d' := by
  induction entries generalizing d with
  | nil => simp [pushEntries, pushAll]
  | cons entry rest ih =>
    simp only [pushEntries, Fallible.bind_eq_ok, ih, List.forall₂_cons_left_iff]
    constructor
    · rintro ⟨item, hitem, d₁, hpush, items, hitems, hall⟩
      exact ⟨item :: items, ⟨item, items, hitem, hitems, rfl⟩, Fallible.bind_eq_ok.2 ⟨d₁, hpush, hall⟩⟩
    · rintro ⟨_, ⟨item, items, hitem, hitems, rfl⟩, hall⟩
      obtain ⟨d₁, hpush, hall⟩ := Fallible.bind_eq_ok.1 hall
      exact ⟨item, hitem, d₁, hpush, items, hitems, hall⟩

theorem pushEntries_append : d.pushEntries (entries₁ ++ entries₂) =
    d.pushEntries entries₁ >>= fun d' => d'.pushEntries entries₂ := by
  induction entries₁ generalizing d with
  | nil => rfl
  | cons entry rest ih => simp only [List.cons_append, pushEntries, ih, bind_assoc]

theorem finish_eq_ok_iff : d.finish = .ok lex ↔ d = lex.draft := by
  unfold finish
  split
  · rw [Except.ok.injEq]
    constructor
    · rintro rfl
      rfl
    · rintro rfl
      rfl
  · rename_i hmissing
    refine ⟨fun h => (by cases h), ?_⟩
    rintro rfl
    exact absurd lex.has_counterparts (by rw [draft] at hmissing; simp [hmissing])

end Draft

theorem extend_eq_ok_iff : lex.extend entries = .ok lex₂ ↔
    ∃ items, List.Forall₂ Builds entries items ∧ lex₂.items = lex.items ++ items := by
  rw [extend, Fallible.bind_eq_ok]
  simp only [Draft.finish_eq_ok_iff, exists_eq_right, Draft.pushEntries_eq_ok_iff, Draft.pushAll_eq_ok_iff, draft]

theorem ofEntries_eq_ok_iff : ofEntries entries = .ok lex ↔ List.Forall₂ Builds entries lex.items := by
  rw [ofEntries, extend_eq_ok_iff]
  constructor
  · rintro ⟨items, hitems, he⟩
    rwa [he]
  · exact fun h => ⟨lex.items, h, rfl⟩

theorem ofItems_items (lex : Lexicon) : ofItems lex.items = .ok lex := by
  have hpush : empty.draft.pushAll lex.items = .ok lex.draft := Draft.pushAll_eq_ok_iff.2 rfl
  rw [ofItems, hpush]
  exact Draft.finish_eq_ok_iff.2 rfl

theorem exists_ofEntries_iff : (∃ lex, ofEntries entries = .ok lex) ↔
    (entries.map (·.1)).Nodup ∧ (∀ e ∈ entries, ∃ item, Builds e item) ∧
      HasCounterparts (entries.flatMap (·.2.features)) := by
  constructor
  · rintro ⟨lex, h⟩
    have hitems := ofEntries_eq_ok_iff.1 h
    rw [← labels_eq hitems, ← features_eq hitems]
    exact ⟨lex.labels_nodup, exists_of_mem hitems, missingCounterpart_eq_none_iff.1 lex.has_counterparts⟩
  · rintro ⟨hlabels, hbuild, hcounterparts⟩
    obtain ⟨items, hitems⟩ := exists_items hbuild
    rw [← labels_eq hitems] at hlabels
    rw [← features_eq hitems] at hcounterparts
    exact ⟨⟨items, hlabels, missingCounterpart_eq_none_iff.2 hcounterparts⟩, ofEntries_eq_ok_iff.2 hitems⟩

/-- A lexicon that has been loaded stands for its entries. -/
theorem extend_eq_ofEntries (h : ofEntries entries₁ = .ok lex₁) :
    lex₁.extend entries₂ = ofEntries (entries₁ ++ entries₂) := by
  obtain ⟨d, hpush, hfinish⟩ := Fallible.bind_eq_ok.1 h
  obtain rfl := Draft.finish_eq_ok_iff.1 hfinish
  have hall : empty.draft.pushEntries (entries₁ ++ entries₂) = lex₁.draft.pushEntries entries₂ := by
    rw [Draft.pushEntries_append, hpush]
    rfl
  rw [ofEntries, extend, extend, hall]

section Places

variable {id : ItemId} {label : String}

theorem mem_toList_iff : (id, item) ∈ lex.toList ↔ lex.item? id = some item := by
  simp [toList, item?, List.mem_zipIdx_iff_getElem?]

theorem find?_eq_some_iff : lex.find? label = some (id, item) ↔ lex.item? id = some item ∧ item.label = label := by
  constructor
  · intro h
    exact ⟨mem_toList_iff.1 (List.mem_of_find?_eq_some h), of_decide_eq_true (List.find?_some h :)⟩
  · rintro ⟨hitem, rfl⟩
    have hsome : (lex.find? item.label).isSome = true := List.find?_isSome.2 ⟨_, mem_toList_iff.2 hitem, by simp⟩
    obtain ⟨⟨id', item'⟩, hfound⟩ := Option.isSome_iff_exists.1 hsome
    have hitem' := mem_toList_iff.1 (List.mem_of_find?_eq_some hfound)
    have hlabel : item'.label = item.label := of_decide_eq_true (List.find?_some hfound :)
    have hlabels : (lex.items.map (·.label))[id]? = (lex.items.map (·.label))[id']? := by
      rw [List.getElem?_map, List.getElem?_map, show lex.items[id]? = _ from hitem, show lex.items[id']? = _ from hitem',
        Option.map_some, Option.map_some, hlabel]
    have hlt : id < (lex.items.map (·.label)).length := by
      rw [List.length_map]
      exact (List.getElem?_eq_some_iff.1 hitem).1
    -- labels are distinct, so the item that is found has the same place
    obtain rfl := (List.getElem?_inj hlt lex.labels_nodup).1 hlabels
    rw [hfound, Option.some.inj (hitem.symm.trans hitem')]

theorem map_fst_toList (lex : Lexicon) : lex.toList.map (·.1) = List.range lex.items.length := by
  rw [toList, List.map_map, List.range_eq_range', ← List.zipIdx_map_snd]
  rfl

theorem map_snd_toList (lex : Lexicon) : lex.toList.map (·.2) = lex.items := by
  rw [toList, List.map_map]
  exact List.zipIdx_map_fst 0 lex.items

theorem item?_of_extend (h : lex.extend entries = .ok lex₂) (hitem : lex.item? id = some item) :
    lex₂.item? id = some item := by
  obtain ⟨items, _, he⟩ := extend_eq_ok_iff.1 h
  rw [item?, he]
  exact List.getElem?_append_left (List.getElem?_eq_some_iff.1 hitem).1 ▸ hitem

end Places

/-- A lexicon that has been loaded is extended to what loads from all entries at once, or is refused for the same reason.
Entries load just if their labels are distinct, each makes an item and all names have their counterparts; they then stand
in their order at places from zero on, keep their places when the lexicon is extended, and load again from their items. -/
theorem extend_eq_ofEntries_append (h : ofEntries entries₁ = .ok lex₁) :
    (∀ entries₂, lex₁.extend entries₂ = ofEntries (entries₁ ++ entries₂)) ∧
      (∀ entries, (∃ lex, ofEntries entries = .ok lex) ↔ (entries.map (·.1)).Nodup ∧
        (∀ e ∈ entries, ∃ item, Builds e item) ∧ HasCounterparts (entries.flatMap (·.2.features))) ∧
      (lex₁.toList.map (·.1) = List.range entries₁.length ∧ List.Forall₂ (fun e x => Builds e x.2) entries₁ lex₁.toList) ∧
      (∀ entries₂ lex₂, lex₁.extend entries₂ = .ok lex₂ → ∀ id item, lex₁.item? id = some item →
        lex₂.item? id = some item ∧ lex₂.find? item.label = some (id, item)) ∧
      ofItems lex₁.items = .ok lex₁ := by
  have hitems := ofEntries_eq_ok_iff.1 h
  refine ⟨fun _ => extend_eq_ofEntries h, fun _ => exists_ofEntries_iff, ⟨?_, ?_⟩, ?_, ofItems_items lex₁⟩
  · rw [map_fst_toList, hitems.length_eq]
  · rwa [← List.forall₂_map_right_iff, map_snd_toList]
  · intro entries₂ lex₂ hextend id item hitem
    have hitem₂ := item?_of_extend hextend hitem
    exact ⟨hitem₂, find?_eq_some_iff.2 ⟨hitem₂, rfl⟩⟩

/-- The items of a declarative clause. -/
def declaratives : Entries :=
  [("John", ⟨[⟨"D", .selectee, false⟩, ⟨"k", .licensee, false⟩], some "John", none⟩),
    ("sleeps", ⟨[⟨"D", .selector, false⟩, ⟨"V", .selectee, false⟩], some "sleeps", some "sleep"⟩),
    ("T", ⟨[⟨"V", .selector, true⟩, ⟨"k", .licensor, false⟩, ⟨"T", .selectee, false⟩], none, none⟩),
    ("C", ⟨[⟨"T", .selector, false⟩, ⟨"C", .category, false⟩], none, none⟩)]

/-- The items that questions need besides. -/
def interrogatives : Entries :=
  [("who", ⟨[⟨"D", .selectee, false⟩, ⟨"k", .licensee, false⟩, ⟨"wh", .licensee, false⟩], some "who", none⟩),
    ("Q", ⟨[⟨"T", .selector, false⟩, ⟨"wh", .licensor, false⟩, ⟨"C", .category, false⟩], none, none⟩)]

/-- The further items need those of the lexicon, and each other. -/
theorem exists_extend_interrogatives : ∃ lex₁ lex₂, ofEntries declaratives = .ok lex₁ ∧
    lex₁.extend interrogatives = .ok lex₂ ∧ ofEntries (declaratives ++ interrogatives) = .ok lex₂ ∧
      lex₁.extend interrogatives.tail = .error (.noCounterpart "Q" "+wh") ∧
        ∀ id item, lex₁.item? id = some item → lex₂.item? id = some item := by
  have hfirst : (ofEntries declaratives).toOption.any (fun _ => true) = true := by decide
  have hall : (ofEntries (declaratives ++ interrogatives)).toOption.any (fun _ => true) = true := by decide
  have hlone : ofEntries (declaratives ++ interrogatives.tail) = .error (.noCounterpart "Q" "+wh") := rfl
  obtain ⟨lex₁, h₁, _⟩ := Fallible.exists_of_any hfirst
  obtain ⟨lex₂, h₂, _⟩ := Fallible.exists_of_any hall
  obtain ⟨hextend, _, _, hplaces, _⟩ := extend_eq_ofEntries_append h₁
  have hextended : lex₁.extend interrogatives = .ok lex₂ := (hextend interrogatives).trans h₂
  exact ⟨lex₁, lex₂, h₁, hextended, h₂, (hextend _).trans hlone, fun id item hitem =>
    (hplaces _ lex₂ hextended id item hitem).1⟩

end Lexicon

end MinimalistGrammar
