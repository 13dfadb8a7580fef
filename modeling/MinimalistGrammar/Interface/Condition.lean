import MinimalistGrammar.Interface.Categories
import MinimalistGrammar.Parse.Error
import MinimalistGrammar.Text.Blank

/-!
Interface conditions: the sentence that a derivation is pronounced as, or the logical form it has, or both.
A logical form is the category of the root, categories of words, and relations between a predicate and the
words of an argument.
-/

namespace MinimalistGrammar

/-- The part an argument plays for its predicate. -/
inductive Role where
  /-- Merged as a specifier by the head that selects the predicate's projection. -/
  | subj
  /-- Merged by the predicate's first selector. -/
  | obj
  /-- Merged by the predicate's second selector. -/
  | iobj
deriving DecidableEq, Repr, Inhabited

namespace Role

def all : List Role := [subj, obj, iobj]

def name : Role → String
  | subj => "subj"
  | obj => "obj"
  | iobj => "iobj"

def ofName? (s : String) : Option Role := all.find? (·.name = s)

/-- The place of a role in the order of declaration. -/
def rank : Role → Nat
  | subj => 0
  | obj => 1
  | iobj => 2

end Role

/-- Words that belong together. -/
abbrev Phrase := List String

inductive Relation where
  /-- The predicate assigns a role to the argument. -/
  | theta (predicate : String) (role : Role) (argument : Phrase)
  /-- A feature of the predicate is checked against the argument. -/
  | agree (predicate : String) (argument : Phrase)
deriving DecidableEq, Repr

namespace Relation

def predicate : Relation → String
  | theta p _ _ => p
  | agree p _ => p

def argument : Relation → Phrase
  | theta _ _ a => a
  | agree _ a => a

instance : ToString Relation where
  toString
    | theta p role a => p ++ "(" ++ role.name ++ ": " ++ " ".intercalate a ++ ")"
    | agree p a => p ++ "(agree: " ++ " ".intercalate a ++ ")"

end Relation

structure LogicalForm where
  /-- The category of the root. -/
  root : Option String := none
  relations : List Relation := []
  categories : Categories := ∅
  /-- The words to build from when there is no sentence. -/
  words : Option (List String) := none
deriving DecidableEq, Repr, Inhabited

structure Condition where
  sentence : Option (List String) := none
  logicalForm : Option LogicalForm := none
deriving DecidableEq, Repr, Inhabited

namespace Condition

/-- The words of whichever target has some; where both have, they must be the same ones. -/
def allWords (c : Condition) : Except ConfigurationError (List String) :=
  match c.sentence, c.logicalForm, c.logicalForm >>= (·.words) with
  | some sentence, _, some words =>
    if sentence.isPerm words then .ok sentence else .error (.wordsDiffer sentence words)
  | some sentence, _, none => .ok sentence
  | none, _, some words => .ok words
  | none, some _, none => .error .noWords
  | none, none, none => .error .emptyCondition

/-- The words a derivation is built from: of the sentence or else of the logical form. There is at least
one. -/
def words (c : Condition) : Except ConfigurationError (List String) := do
  let words ← c.allWords
  if words.isEmpty then throw .noWords
  return words

end Condition

end MinimalistGrammar
