import MinimalistGrammar.Text.Blank

/-!
Features of lexical items. A selector checks a selectee of its name (merge) and a licensor a licensee of
its name (move); a category is checked by nothing and completes a derivation.

In compact notation these are `=x`, `~x`, `+x`, `-x` and `x`, and `<=x` is a selector that also attracts
the head of what it selects.
-/

namespace MinimalistGrammar

/-- The part a feature plays when it is checked. -/
inductive Polarity where
  | selector
  | selectee
  | licensor
  | licensee
  | category
deriving DecidableEq, Repr, Inhabited

namespace Polarity

def all : List Polarity := [selector, selectee, licensor, licensee, category]

/-- The polarity this one is checked against. -/
def partner : Polarity → Option Polarity
  | selector => some selectee
  | selectee => some selector
  | licensor => some licensee
  | licensee => some licensor
  | category => none

/-- A trigger projects: its head checks a partner and goes on with its next feature. -/
def isTrigger : Polarity → Bool
  | selector | licensor => true
  | _ => false

/-- A target is checked by a trigger of another item. -/
def isTarget : Polarity → Bool
  | selectee | licensee => true
  | _ => false

/-- The mark before the name in compact notation. -/
def mark : Polarity → String
  | selector => "="
  | selectee => "~"
  | licensor => "+"
  | licensee => "-"
  | category => ""

def name : Polarity → String
  | selector => "selector"
  | selectee => "selectee"
  | licensor => "licensor"
  | licensee => "licensee"
  | category => "category"

def ofName? (s : String) : Option Polarity := all.find? (·.name = s)

/-- The place of a polarity in the order of declaration. -/
def rank : Polarity → Nat
  | selector => 0
  | selectee => 1
  | licensor => 2
  | licensee => 3
  | category => 4

end Polarity

/-- A syntactic feature. -/
structure Feature where
  name : String
  polarity : Polarity
  /-- Checking the feature also attracts the head of the phrase it selects. -/
  movesHead : Bool := false
deriving DecidableEq, Repr, Inhabited

namespace Feature

/-- A selector that attracts the head of what it selects. -/
def headAttracting (name : String) : Feature := ⟨name, .selector, true⟩

/-- Whether the feature, as a trigger, checks the other one. -/
def checks (f g : Feature) : Bool :=
  f.polarity.isTrigger && f.polarity.partner == some g.polarity && f.name == g.name

/-- Compact notation. -/
def compact (f : Feature) : String := (if f.movesHead then "<" else "") ++ f.polarity.mark ++ f.name

instance : ToString Feature := ⟨compact⟩

/-- A feature with the given name, which may be neither empty nor contain blanks. -/
def named? (polarity : Polarity) (movesHead : Bool) (name : List Char) : Option Feature :=
  if name.isEmpty || name.any Text.isBlank then none else some ⟨String.ofList name, polarity, movesHead⟩

/-- Reads compact notation. -/
def ofChars? : List Char → Option Feature
  | '<' :: '=' :: name => named? .selector true name
  | '<' :: _ => none
  | '=' :: name => named? .selector false name
  | '~' :: name => named? .selectee false name
  | '+' :: name => named? .licensor false name
  | '-' :: name => named? .licensee false name
  | name => named? .category false name

def ofCompact? (s : String) : Option Feature := ofChars? s.toList

/-- Features are ordered by name, then polarity, then head movement. -/
def le (f g : Feature) : Bool :=
  f.name < g.name ||
    (f.name = g.name &&
      (f.polarity.rank < g.polarity.rank ||
        (f.polarity = g.polarity && (!f.movesHead || g.movesHead))))

end Feature

end MinimalistGrammar
