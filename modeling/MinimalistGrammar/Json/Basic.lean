/-!
JSON values, as far as the syntax of a text fixes them. Objects keep their members in order, repetitions
included. A string whose escapes do not all stand for characters, and a number too large to be
represented, are still values here: `Json.isSound` rules them out where a value is used.
-/

namespace MinimalistGrammar

/-- The parts of a number as written. -/
structure Json.Number where
  negative : Bool := false
  /-- The digits before the point. -/
  whole : List Nat
  /-- The digits after the point, if there is one. -/
  fraction : Option (List Nat) := none
  exponent : Option Int := none
deriving DecidableEq, Repr

inductive Json where
  | null
  | bool (value : Bool)
  | number (value : Json.Number)
  /-- A string; without a value when it has an escape that stands for no character. -/
  | string (value : Option String)
  | array (items : List Json)
  | object (members : List (Option String × Json))
deriving Repr, Inhabited

namespace Json

def ofString (s : String) : Json := string (some s)

/-- The decimal digits of a number, the highest first. -/
def decimalDigits (n : Nat) : List Nat := (Nat.toDigits 10 n).map fun c => c.toNat - '0'.toNat

def valueOfDigits (digits : List Nat) : Nat := digits.foldl (fun n d => 10 * n + d) 0

def ofNat (n : Nat) : Json := number { whole := decimalDigits n }

def ofBool (b : Bool) : Json := bool b

def ofStrings (l : List String) : Json := array (l.map ofString)

/-- An object whose member names are all given. -/
def mkObject (members : List (String × Json)) : Json :=
  object (members.map fun (k, v) => (some k, v))

def ofOption {α : Type} (f : α → Json) : Option α → Json
  | some a => f a
  | none => null

namespace Number

/-- The digits of a number up to the last one that still fits into 64 bits, and the power of ten that
stands for the digits left out: those before the point count, those after it do not. -/
def significand (n : Number) : Nat × Int :=
  let fits (m d : Nat) : Bool := 10 * m + d < 0x10000000000000000
  let step (acc : Nat × Int × Bool) (d : Nat) (onFit onDrop : Int) : Nat × Int × Bool :=
    let (m, e, dropping) := acc
    if !dropping && fits m d then (10 * m + d, e + onFit, false) else (m, e + onDrop, true)
  let (m, e, _) := n.whole.foldl (fun acc d => step acc d 0 1) (0, 0, false)
  let (m, e, _) := (n.fraction.getD []).foldl (fun acc d => step acc d (-1) 0) (m, e, false)
  (m, e)

/-- Whether the number lies in the range of double precision. -/
def isFinite (n : Number) : Bool :=
  let (m, e) := n.significand
  let e := e + n.exponent.getD 0
  m = 0 || e < 0 || (e ≤ 308 && !(Float.ofNat m * Float.ofScientific 1 false e.toNat).isInf)

/-- The value of an unsigned number without point and exponent. -/
def toNat? (n : Number) : Option Nat :=
  if n.negative || n.fraction.isSome || n.exponent.isSome then none else some (valueOfDigits n.whole)

end Number

mutual

/-- Whether a value can be represented, with at most `depth` arrays and objects inside one another. -/
def isSound (depth : Nat) : Json → Bool
  | null | bool _ => true
  | number n => n.isFinite
  | string s => s.isSome
  | array items =>
    match depth with
    | 0 => false
    | depth + 1 => areSound depth items
  | object members =>
    match depth with
    | 0 => false
    | depth + 1 => areSoundMembers depth members

def areSound (depth : Nat) : List Json → Bool
  | [] => true
  | v :: rest => isSound depth v && areSound depth rest

def areSoundMembers (depth : Nat) : List (Option String × Json) → Bool
  | [] => true
  | (k, v) :: rest => k.isSome && isSound depth v && areSoundMembers depth rest

end

/-- The depth to which arrays and objects may stand inside one another. -/
def maxDepth : Nat := 127

end Json

end MinimalistGrammar
