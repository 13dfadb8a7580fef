import MinimalistGrammar.Lexicon.Item

/-!
Lexicons: items in the order of their declaration, under distinct labels, where every selector, licensor
and licensee meets a counterpart. A lexicon can be extended; old and new items are then checked together.
-/

namespace MinimalistGrammar

/-- The place of an item in its lexicon. -/
abbrev ItemId := Nat

/-- What a lexicon says of one item, before it is checked. -/
structure Entry where
  features : List Feature
  form : Option String := none
  meaning : Option String := none
deriving DecidableEq, Repr

/-- Entries under their labels, in order; a label may come twice here. -/
abbrev Entries := List (String × Entry)

/-- The features an item with this one has to find in the lexicon. -/
def Feature.hasCounterpart (available : List Feature) (f : Feature) : Bool :=
  match f.polarity with
  | .selector => available.any fun g => g.polarity = .selectee && g.name = f.name
  | .licensor => available.any fun g => g.polarity = .licensee && g.name = f.name
  | .licensee => available.any fun g => g.polarity = .licensor && g.name = f.name
  | .selectee | .category => true

/-- The first feature without a counterpart among the items, with the item it belongs to. -/
def missingCounterpart (items : List Item) : Option (Item × Feature) :=
  let available := items.flatMap (·.features)
  items.findSome? fun item =>
    (item.features.find? fun f => !f.hasCounterpart available).map fun f => (item, f)

structure Lexicon where
  items : List Item
  labels_nodup : (items.map (·.label)).Nodup
  has_counterparts : missingCounterpart items = none
deriving DecidableEq, Repr

namespace Lexicon

/-- Items under distinct labels, not yet checked for counterparts. -/
abbrev Draft := { items : List Item // (items.map (·.label)).Nodup }

namespace Draft

/-- Adds an item at the end, unless its label is taken. -/
def push (d : Draft) (item : Item) : Except LexiconError Draft :=
  if h : item.label ∈ d.val.map (·.label) then .error (.duplicateLabel item.label)
  else .ok ⟨d.val ++ [item], by
    have := d.property
    simp only [List.map_append, List.map_cons, List.map_nil]
    refine List.nodup_append.2 ⟨this, by simp, ?_⟩
    intro a ha b hb e
    simp only [List.mem_singleton] at hb
    exact h (by rw [← hb, ← e]; exact ha)⟩

def pushAll (d : Draft) : List Item → Except LexiconError Draft
  | [] => .ok d
  | item :: rest => do (← d.push item).pushAll rest

/-- Builds each entry's item and adds it before the next is looked at. -/
def pushEntries (d : Draft) : Entries → Except LexiconError Draft
  | [] => .ok d
  | (label, entry) :: rest => do
    let item ← Item.ofFeatures label entry.features entry.form entry.meaning
    (← d.push item).pushEntries rest

/-- Checks that every feature that needs a counterpart has one. -/
def finish (d : Draft) : Except LexiconError Lexicon :=
  match h : missingCounterpart d.val with
  | none => .ok ⟨d.val, d.property, h⟩
  | some (item, f) => .error (.noCounterpart item.label f.compact)

end Draft

def empty : Lexicon := ⟨[], by simp, rfl⟩

instance : EmptyCollection Lexicon := ⟨empty⟩

instance : Inhabited Lexicon := ⟨empty⟩

def draft (lex : Lexicon) : Draft := ⟨lex.items, lex.labels_nodup⟩

/-- The lexicon with further entries, checked together with its own items. -/
def extend (lex : Lexicon) (entries : Entries) : Except LexiconError Lexicon := do
  (← lex.draft.pushEntries entries).finish

def ofEntries (entries : Entries) : Except LexiconError Lexicon := empty.extend entries

def ofItems (items : List Item) : Except LexiconError Lexicon := do
  (← empty.draft.pushAll items).finish

def size (lex : Lexicon) : Nat := lex.items.length

def toList (lex : Lexicon) : List (ItemId × Item) := lex.items.zipIdx.map fun (item, id) => (id, item)

def item? (lex : Lexicon) (id : ItemId) : Option Item := lex.items[id]?

def find? (lex : Lexicon) (label : String) : Option (ItemId × Item) :=
  lex.toList.find? fun (_, item) => item.label = label

def pronounced (lex : Lexicon) (word : String) : List (ItemId × Item) :=
  lex.toList.filter fun (_, item) => item.form = some word

def covert (lex : Lexicon) : List (ItemId × Item) := lex.toList.filter fun (_, item) => item.isCovert

end Lexicon

end MinimalistGrammar
