import MinimalistGrammar.Bounds
import MinimalistGrammar.Lexicon.Basic
import MinimalistGrammar.Parse.Error

/-!
The search space of a parse. A slot is a place for one item: there is one for each word of the sentence, and
after them as many for covert items as the bounds allow. A slot has a point for each feature of its longest
candidate, and points are numbered through, slot by slot.
-/

namespace MinimalistGrammar

abbrev SlotId := Nat

abbrev PointId := Nat

/-- A feature position of a slot. -/
structure Point where
  slot : SlotId
  index : Nat
deriving DecidableEq, Repr, Inhabited

/-- Whether the point stands for the item itself, before anything is checked. -/
def Point.isLexical (p : Point) : Bool := p.index = 0

structure Slot where
  /-- The place of its word in the sentence; absent if the slot is for a covert item. -/
  position : Option Nat
  candidates : List (ItemId × Item)
  /-- Its first point. -/
  start : PointId
deriving DecidableEq, Repr

namespace Slot

def isCovert (s : Slot) : Bool := s.position.isNone

/-- As many points as the longest candidate has features. -/
def width (s : Slot) : Nat := (s.candidates.map fun c => c.2.features.length).foldl max 0

/-- The points in order. -/
def points (s : Slot) : List PointId := List.range' s.start s.width

end Slot

structure Schema where
  lexicon : Lexicon
  words : List String
  bounds : Bounds
  slots : Array Slot
  points : Array Point
deriving DecidableEq, Repr

namespace Schema

/-- Numbers the points of slots, given by position and candidates, from `start` on. -/
def layOut (start : PointId) : List (Option Nat × List (ItemId × Item)) → List Slot
  | [] => []
  | (position, candidates) :: rest =>
    let slot : Slot := ⟨position, candidates, start⟩
    slot :: layOut (start + slot.width) rest

/-- The points of slots, which come one after another. -/
def pointsOf (slots : List Slot) : List Point :=
  slots.zipIdx.flatMap fun (slot, id) => (List.range slot.width).map fun index => ⟨id, index⟩

/-- The items pronounced like each word; every word has some. -/
def overtCandidates (lex : Lexicon) (words : List String) :
    Except LexiconError (List (List (ItemId × Item))) :=
  words.mapM fun word =>
    match lex.pronounced word with
    | [] => .error (.unknownWord word)
    | candidates => .ok candidates

/-- Lays out the slots for a sentence. It fails when no complete derivation fits the bounds. -/
def build (lex : Lexicon) (words : List String) (bounds : Bounds) : Except ParseError Schema := do
  let overt ← (overtCandidates lex words).mapError .lexicon
  let covert := lex.covert
  if bounds.emptyItems = 0 && covert.any (·.2.completesClause) &&
      !overt.flatten.any (·.2.completesClause) then
    throw (.bound (.emptyItems 1 0))
  let covertSlots := if covert.isEmpty then [] else List.replicate bounds.emptyItems covert
  let slots := layOut 0 (overt.zipIdx.map (fun (c, i) => (some i, c)) ++ covertSlots.map (none, ·))
  return { lexicon := lex, words, bounds, slots := slots.toArray, points := (pointsOf slots).toArray }

variable (s : Schema)

def slotCount : Nat := s.slots.size

def slotIds : List SlotId := List.range s.slotCount

def pointCount : Nat := s.points.size

def pointIds : List PointId := List.range s.pointCount

def point (p : PointId) : Point := s.points.getD p default

def slotOf (p : PointId) : SlotId := (s.point p).slot

def candidates (slot : SlotId) : List (ItemId × Item) := (s.slots[slot]?.map (·.candidates)).getD []

def pointsAt (slot : SlotId) : List PointId := (s.slots[slot]?.map (·.points)).getD []

/-- The point of a slot at an index, if the slot is that wide. -/
def pointAt? (slot : SlotId) (index : Nat) : Option PointId := (s.pointsAt slot)[index]?

def lexicalPoint (slot : SlotId) : PointId := (s.slots[slot]?.map (·.start)).getD 0

/-- The next point of the same slot. -/
def successor (p : PointId) : Option PointId := s.pointAt? (s.slotOf p) ((s.point p).index + 1)

/-- The previous point of the same slot. -/
def predecessor (p : PointId) : Option PointId :=
  match (s.point p).index with
  | 0 => none
  | index + 1 => s.pointAt? (s.slotOf p) index

/-- The slot of the word at a position. -/
def overtSlot? (position : Nat) : Option SlotId :=
  if position < s.words.length then some position else none

def covertSlots : List SlotId := List.range' s.words.length (s.slotCount - s.words.length)

/-- The features the candidates of a point's slot have there. -/
def featuresAt (p : PointId) : List (ItemId × Feature) :=
  (s.candidates (s.slotOf p)).filterMap fun (id, item) =>
    (item.feature? (s.point p).index).map fun f => (id, f)

/-- A readable name: the word, or `ε` with the slot. -/
def describe (slot : SlotId) : String :=
  match s.slots[slot]? >>= (·.position) with
  | some position => s.words.getD position ""
  | none => s!"ε{slot}"

end Schema

end MinimalistGrammar
