import MinimalistGrammar.Proofs.Json.Decode
import MinimalistGrammar.Proofs.Json.Text
import MinimalistGrammar.Proofs.Lexicon.Compact
import MinimalistGrammar.Proofs.Lexicon.Loading

/-!
Written lexicons are read back. A feature is written by its name and polarity, so that reading it asks for no more than a name
and for head attraction by selectors only; an item is written with what its entry said, and its sequence of features, its form
and its counterparts were checked before.
-/

namespace MinimalistGrammar

open Json

variable {text : String} {lex : Lexicon} {item : Item} {depth : Nat}

/-- Every feature has a name, and only selectors attract heads. -/
def Item.IsFormed (item : Item) : Prop := ∀ f ∈ item.features, f.IsFormed

/-- What a lexicon has to say to get the item. -/
def Item.entry (item : Item) : Entry := ⟨item.features, item.form, item.meaning⟩

section Writing

theorem Feature.isWritable_toJson (f : Feature) : f.toJson.IsWritable :=
  .mkObject (by cases f.movesHead <;> simp [Polarity.toJson])

theorem Item.isWritable_toJson (item : Item) : item.toJson.IsWritable := by
  have hfeatures : (array (item.features.map Feature.toJson)).IsWritable := .map fun f _ => f.isWritable_toJson
  exact .mkObject (by cases item.form <;> cases item.meaning <;> simp [hfeatures])

theorem Lexicon.isWritable_toJson (lex : Lexicon) : lex.toJson.IsWritable :=
  .mapMembers fun item _ => item.isWritable_toJson

end Writing

section Reading

theorem Feature.isSound_toJson (f : Feature) : f.toJson.isSound (depth + 1) = true :=
  isSound_mkObject_iff.2 (by cases f.movesHead <;> simp [Polarity.toJson])

theorem Item.isSound_toJson (item : Item) : item.toJson.isSound (depth + 3) = true := by
  have hfeatures : (array (item.features.map Feature.toJson)).isSound (depth + 2) = true :=
    isSound_map_iff.2 fun f _ => f.isSound_toJson
  exact isSound_mkObject_iff.2 (by cases item.form <;> cases item.meaning <;> simp [hfeatures])

theorem Entry.ofJson?_toJson (h : item.IsFormed) : Entry.ofJson? item.toJson = some item.entry := by
  have hfeatures : (array (item.features.map Feature.toJson)).list? Feature.ofJson? = some item.features :=
    list?_map fun f hf => Feature.ofJson?_toJson (h f hf)
  have hread : Entry.ofJson? item.toJson = (do
      let members ← item.toJson.members?
      let features ← (← member? ["features"] members) >>= Json.list? Feature.ofJson?
      let form ← optional? none (nullable? string?) (← member? ["pf", "phonological_form"] members)
      let meaning ← optional? none (nullable? string?) (← member? ["denotation"] members)
      return { features, form, meaning }) := rfl
  rw [hread, Item.toJson, members?_mkObject, Item.entry]
  cases item.form <;> cases item.meaning <;>
    simp [member?, hfeatures, optional?, nullable?, ofString, string?]

theorem Entries.ofJson?_toJson (h : ∀ item ∈ lex.items, item.IsFormed) :
    Entries.ofJson? lex.toJson = some (lex.items.map fun item => (item.label, item.entry)) := by
  have hread : Entries.ofJson? lex.toJson = lex.toJson.members? >>= fun members => members.mapM fun m =>
      if m.2.isSound (maxDepth - 1) then (Entry.ofJson? m.2).map fun e => (m.1, e) else none := rfl
  rw [hread, Lexicon.toJson, members?_mkObject]
  refine mapM_map_eq_some fun item hitem => ?_
  have hsound : item.toJson.isSound (maxDepth - 1) = true := item.isSound_toJson
  rw [if_pos hsound, Entry.ofJson?_toJson (h item hitem), Option.map_some]

theorem Lexicon.ofEntries_entries (lex : Lexicon) :
    ofEntries (lex.items.map fun item => (item.label, item.entry)) = .ok lex := by
  rw [ofEntries_eq_ok_iff, List.forall₂_map_left_iff, List.forall₂_same]
  exact fun item _ => Item.ofFeatures_eq_ok_iff.2 ⟨rfl, rfl, rfl, rfl⟩

theorem Entries.ofText_write (h : ∀ item ∈ lex.items, item.IsFormed) :
    Entries.ofText lex.toJson.write = .ok (lex.items.map fun item => (item.label, item.entry)) := by
  rw [Entries.ofText, parse?_write lex.isWritable_toJson, Option.bind_eq_bind, Option.bind_some, ofJson?_toJson h]

theorem Lexicon.ofText_write_of_isFormed (h : ∀ item ∈ lex.items, item.IsFormed) :
    Lexicon.ofText lex.toJson.write = .ok lex := by
  rw [Lexicon.ofText, Entries.ofText_write h]
  exact lex.ofEntries_entries

end Reading

section Loading

theorem Entry.isFormed_of_ofJson? {v : Json} {entry : Entry} (h : Entry.ofJson? v = some entry) :
    ∀ f ∈ entry.features, f.IsFormed := by
  have of_mapM {items : List Json} {features : List Feature} (h : items.mapM Feature.ofJson? = some features) :
      ∀ f ∈ features, f.IsFormed := by
    intro f hf
    obtain ⟨v, -, hv⟩ := exists_left_of_forall₂ (forall₂_of_mapM_eq_some h) hf
    exact Feature.isFormed_of_ofJson? hv
  cases v with
  | array items =>
    obtain ⟨features, hfeatures, he⟩ := Option.bind_eq_some_iff.1 h
    cases he
    exact of_mapM hfeatures
  | object members =>
    simp only [Entry.ofJson?, bind, Option.bind_eq_some_iff] at h
    obtain ⟨members, -, -, -, features, ⟨v, -, hfeatures⟩, -, -, form, -, -, -, meaning, -, he⟩ := h
    cases he
    cases v with
    | array items => exact of_mapM hfeatures
    | _ => cases hfeatures
  | null => cases h
  | bool => cases h
  | number => cases h
  | string => cases h

theorem Entries.isFormed_of_ofText {entries : Entries} (h : Entries.ofText text = .ok entries) :
    ∀ e ∈ entries, ∀ f ∈ e.2.features, f.IsFormed := by
  intro e he
  rw [Entries.ofText] at h
  split at h
  · rename_i entries' hread
    cases h
    obtain ⟨v, -, hv⟩ := Option.bind_eq_some_iff.1 hread
    obtain ⟨members, -, hmembers⟩ := Option.bind_eq_some_iff.1 hv
    obtain ⟨⟨label, v⟩, -, hm⟩ := exists_left_of_forall₂ (forall₂_of_mapM_eq_some hmembers) he
    obtain ⟨-, hm⟩ := Option.ite_none_right_eq_some.1 hm
    obtain ⟨entry, hentry, rfl⟩ := Option.map_eq_some_iff.1 hm
    exact Entry.isFormed_of_ofJson? hentry
  · cases h

theorem Lexicon.isFormed_of_ofText (h : Lexicon.ofText text = .ok lex) : ∀ item ∈ lex.items, item.IsFormed := by
  obtain ⟨entries, hentries, hlex⟩ := Fallible.bind_eq_ok.1 h
  intro item hitem
  obtain ⟨e, he, hbuilds⟩ := exists_left_of_forall₂ (ofEntries_eq_ok_iff.1 hlex) hitem
  rw [Item.IsFormed, hbuilds.features_eq]
  exact Entries.isFormed_of_ofText hentries e he

end Loading

/-- A lexicon that a text gives, written as the object from its labels to its items, is read back. -/
theorem Lexicon.ofText_write_toJson (h : Lexicon.ofText text = .ok lex) : Lexicon.ofText lex.toJson.write = .ok lex :=
  ofText_write_of_isFormed (isFormed_of_ofText h)

/-- A clause whose head attracts its verb. -/
def rainyClause : String :=
  "\x7b\"C\":[\"<=V\",\"C\"],\"rains\":\x7b\"features\":[\"~V\"],\"pf\":\"rains\",\"denotation\":\"rain\"\x7d\x7d"

theorem Lexicon.exists_ofText_write_rainyClause : ∃ lex, ofText rainyClause = .ok lex ∧
    lex.items.map (·.features) = [[.headAttracting "V", ⟨"C", .category, false⟩], [⟨"V", .selectee, false⟩]] ∧
    lex.items.map (·.form) = [none, some "rains"] ∧ lex.items.map (·.meaning) = [none, some "rain"] ∧
    ofText lex.toJson.write = .ok lex := by
  have hread : (ofText rainyClause).toOption.any (fun lex =>
      lex.items.map (·.features) = [[.headAttracting "V", ⟨"C", .category, false⟩], [⟨"V", .selectee, false⟩]] ∧
        lex.items.map (·.form) = [none, some "rains"] ∧ lex.items.map (·.meaning) = [none, some "rain"]) = true := by
    decide +kernel
  obtain ⟨lex, hlex, hitems⟩ := Fallible.exists_of_any hread
  obtain ⟨hfeatures, hforms, hmeanings⟩ := of_decide_eq_true hitems
  exact ⟨lex, hlex, hfeatures, hforms, hmeanings, ofText_write_toJson hlex⟩

end MinimalistGrammar
