/-!
White space, in the sense of the Unicode property of that name, and the words it separates.
-/

namespace MinimalistGrammar.Text

/-- The code points of white space: closed ranges, ascending and apart. -/
def blankRanges : List (Nat × Nat) :=
  [(0x09, 0x0D), (0x20, 0x20), (0x85, 0x85), (0xA0, 0xA0), (0x1680, 0x1680), (0x2000, 0x200A),
   (0x2028, 0x2029), (0x202F, 0x202F), (0x205F, 0x205F), (0x3000, 0x3000)]

def isBlank (c : Char) : Bool := blankRanges.any fun r => r.1 ≤ c.toNat && c.toNat ≤ r.2

/-- The table holds 25 characters. -/
example : (blankRanges.map fun r => r.2 + 1 - r.1).sum = 25 := by decide

/-- Splits off the word that a text begins with. -/
def splitWords (current : List Char) : List Char → List (List Char)
  | [] => if current.isEmpty then [] else [current.reverse]
  | c :: rest =>
    if isBlank c then
      if current.isEmpty then splitWords [] rest else current.reverse :: splitWords [] rest
    else splitWords (c :: current) rest

/-- The maximal runs of characters that are not blank. -/
def words (s : String) : List String := (splitWords [] s.toList).map String.ofList

/-- Whether the text has no character, or only blank ones. -/
def isBlankText (s : String) : Bool := s.toList.all isBlank

end MinimalistGrammar.Text
