/-!
Why a lexicon is refused. All of it is found before any parsing begins.
-/

namespace MinimalistGrammar

/-- What is wrong with a sequence of features. -/
inductive SequenceFault where
  /-- Only a selector in first position may attract a head. -/
  | headAttraction
  | initialLicensor
  /-- A licensee came before the selectee. -/
  | earlyLicensee
  /-- Something other than a licensee came after the selectee. -/
  | afterSelectee
  | afterCategory
  /-- The sequence ended without selectee or category. -/
  | noCategory
deriving DecidableEq, Repr

def SequenceFault.message : SequenceFault → String
  | headAttraction => "only a selector in first position may attract a head"
  | initialLicensor => "an item cannot begin with a licensor"
  | earlyLicensee => "a licensee must follow the selectee"
  | afterSelectee => "only licensees may follow the selectee"
  | afterCategory => "nothing may follow a category feature"
  | noCategory => "missing a selectee or category feature"

inductive LexiconError where
  /-- The text is not a lexicon in JSON. -/
  | undecodable
  | unreadable (path reason : String)
  | duplicateLabel (label : String)
  | emptyFeatures (label : String)
  | malformedSequence (label : String) (fault : SequenceFault)
  | emptyForm (label : String)
  /-- The text is no feature in compact notation. -/
  | invalidFeature (text : String)
  /-- A feature that nothing in the lexicon could check, or that checks nothing in it. -/
  | noCounterpart (label feature : String)
  /-- No item is pronounced like this word. -/
  | unknownWord (word : String)
deriving DecidableEq, Repr

def LexiconError.message : LexiconError → String
  | undecodable => "lexicon could not be decoded"
  | unreadable path reason => s!"lexicon could not be read from '{path}': {reason}"
  | duplicateLabel label => s!"lexical item '{label}' is declared more than once"
  | emptyFeatures label => s!"lexical item '{label}' has no features"
  | malformedSequence label fault =>
    s!"lexical item '{label}' has a malformed feature sequence: {fault.message}"
  | emptyForm label => s!"lexical item '{label}' has an empty phonological form"
  | invalidFeature text => s!"feature '{text}' is not a valid feature descriptor"
  | noCounterpart label feature =>
    s!"feature '{feature}' of lexical item '{label}' has no counterpart in the lexicon"
  | unknownWord word => s!"no lexical item is pronounced '{word}'"

end MinimalistGrammar
