import MinimalistGrammar.Lexicon.Error
import MinimalistGrammar.Lexicon.Feature

/-!
Lexical items: a label, a sequence of features, and perhaps a pronounced form and a meaning.

The features come in the order in which they are checked: first selectors and licensors, then either one
selectee with the licensees that make its phrase move on, or one category.
-/

namespace MinimalistGrammar

/-- How far a sequence of features has come. -/
inductive SequenceStage where
  | triggers
  /-- After the selectee. -/
  | licensees
  /-- After the category. -/
  | complete
deriving DecidableEq, Repr

/-- What is wrong with the features from here on, if anything; `initial` marks the very first. -/
def sequenceFault (initial : Bool) (stage : SequenceStage) : List Feature → Option SequenceFault
  | [] => if stage = .triggers then some .noCategory else none
  | f :: rest =>
    if f.movesHead && (!initial || f.polarity != .selector) then some .headAttraction
    else
      match stage, f.polarity with
      | .triggers, .licensor =>
        if initial then some .initialLicensor else sequenceFault false .triggers rest
      | .triggers, .selector => sequenceFault false .triggers rest
      | .triggers, .selectee => sequenceFault false .licensees rest
      | .triggers, .category => sequenceFault false .complete rest
      | .triggers, .licensee => some .earlyLicensee
      | .licensees, .licensee => sequenceFault false .licensees rest
      | .licensees, _ => some .afterSelectee
      | .complete, _ => some .afterCategory

/-- Whether the features of an item are in order: there are some, and they come in the right sequence. -/
def IsFeatureSequence (features : List Feature) : Prop :=
  features ≠ [] ∧ sequenceFault true .triggers features = none

instance (features : List Feature) : Decidable (IsFeatureSequence features) :=
  inferInstanceAs (Decidable (_ ∧ _))

/-- A pronounced form has a character that is not blank. -/
def IsForm (form : Option String) : Prop := ∀ s ∈ form, Text.isBlankText s = false

instance (form : Option String) : Decidable (IsForm form) :=
  inferInstanceAs (Decidable (∀ s ∈ form, _))

structure Item where
  label : String
  features : List Feature
  /-- How the item is pronounced; absent for covert items. -/
  form : Option String
  meaning : Option String
  isFeatureSequence : IsFeatureSequence features
  isForm : IsForm form
deriving DecidableEq, Repr

/-- Reads one feature in compact notation. -/
def Feature.ofCompact (s : String) : Except LexiconError Feature :=
  match ofCompact? s with
  | some f => .ok f
  | none => .error (.invalidFeature s)

namespace Item

/-- Builds an item. The form is looked at before the features. -/
def ofFeatures (label : String) (features : List Feature) (form meaning : Option String) :
    Except LexiconError Item :=
  if hf : IsForm form then
    if hs : IsFeatureSequence features then .ok ⟨label, features, form, meaning, hs, hf⟩
    else
      match features, sequenceFault true .triggers features with
      | _ :: _, some fault => .error (.malformedSequence label fault)
      | _, _ => .error (.emptyFeatures label)
  else .error (.emptyForm label)

/-- Reads features in compact notation, up to the first that is none. -/
def featuresOfCompact (texts : List String) : Except LexiconError (List Feature) :=
  texts.mapM Feature.ofCompact

/-- Builds an item from its features in compact notation, separated by blanks. -/
def ofCompact (label features : String) (form meaning : Option String) : Except LexiconError Item := do
  ofFeatures label (← featuresOfCompact (Text.words features)) form meaning

def feature? (item : Item) (index : Nat) : Option Feature := item.features[index]?

def isCovert (item : Item) : Bool := item.form.isNone

/-- The place of the selectee or category. -/
def categoryIndex (item : Item) : Nat :=
  item.features.findIdx fun f => f.polarity = .selectee || f.polarity = .category

/-- The name of the selectee or category. -/
def category (item : Item) : String := ((item.feature? item.categoryIndex).map (·.name)).getD ""

/-- Whether the item can head a complete derivation. -/
def completesClause (item : Item) : Bool := item.features.getLast?.any (·.polarity = .category)

/-- How often a phrase headed by the item moves. -/
def licenseeCount (item : Item) : Nat := item.features.countP (·.polarity = .licensee)

/-- Whether the item's first feature attracts the head of its complement. -/
def attractsHead (item : Item) : Bool := item.features.head?.any (·.movesHead)

instance : ToString Item where
  toString item := " ".intercalate ((item.form.getD "ε" ++ " ::") :: item.features.map toString)

end Item

end MinimalistGrammar
