import MinimalistGrammar.Json.Basic

/-!
Reading JSON texts: characters make tokens, tokens make a value. Both stages are automata that take their
input item by item, so no text is nested too deeply for them. A text holds one value and blanks around it.
-/

namespace MinimalistGrammar.Json

inductive Token where
  | openArray
  | closeArray
  | openObject
  | closeObject
  | comma
  | colon
  /-- A value without parts. -/
  | scalar (value : Json)
deriving Repr

/-- What has been read of a string: its characters, last first; whether every escape so far stands for a
character; and the first half of a surrogate pair that still waits for its second. -/
structure StringDraft where
  characters : List Char := []
  wellFormed : Bool := true
  half : Option Nat := none

namespace StringDraft

def push (c : Char) (d : StringDraft) : StringDraft :=
  { characters := c :: d.characters, wellFormed := d.wellFormed && d.half.isNone }

/-- Adds a code unit of sixteen bits. -/
def pushUnit (u : Nat) (d : StringDraft) : StringDraft :=
  let isLow := 0xDC00 ≤ u && u < 0xE000
  match d.half with
  | some high =>
    if isLow then
      { d with
        characters := Char.ofNat (0x10000 + (high - 0xD800) * 0x400 + (u - 0xDC00)) :: d.characters
        half := none }
    else { d with wellFormed := false }
  | none =>
    if 0xD800 ≤ u && u < 0xDC00 then { d with half := some u }
    else if isLow then { d with wellFormed := false }
    else d.push (Char.ofNat u)

def finish (d : StringDraft) : Option String :=
  if d.wellFormed && d.half.isNone then some (String.ofList d.characters.reverse) else none

end StringDraft

/-- Where the lexer is. -/
inductive LexerMode where
  | between
  /-- In a name, its letters last first. -/
  | word (letters : List Char)
  /-- In a number, its characters last first. -/
  | numeral (characters : List Char)
  | string (draft : StringDraft)
  /-- After a backslash. -/
  | escape (draft : StringDraft)
  /-- In the four digits of a code unit. -/
  | unit (draft : StringDraft) (digits value : Nat)

def digit? (c : Char) : Option Nat :=
  if '0' ≤ c && c ≤ '9' then some (c.toNat - '0'.toNat) else none

def hexDigit? (c : Char) : Option Nat :=
  if '0' ≤ c && c ≤ '9' then some (c.toNat - '0'.toNat)
  else if 'a' ≤ c && c ≤ 'f' then some (c.toNat - 'a'.toNat + 10)
  else if 'A' ≤ c && c ≤ 'F' then some (c.toNat - 'A'.toNat + 10)
  else none

/-- Splits off the digits a text begins with. -/
def splitDigits (cs : List Char) : List Nat × List Char :=
  ((cs.takeWhile (digit? · |>.isSome)).filterMap digit?, cs.dropWhile (digit? · |>.isSome))

/-- Reads an exponent with its mark; the empty text is none. -/
def exponent? : List Char → Option (Option Int)
  | [] => some none
  | mark :: rest =>
    if mark = 'e' || mark = 'E' then
      let (sign, rest) : Int × List Char :=
        match rest with
        | '-' :: rest => (-1, rest)
        | '+' :: rest => (1, rest)
        | rest => (1, rest)
      match splitDigits rest with
      | (d :: ds, []) => some (some (sign * valueOfDigits (d :: ds)))
      | _ => none
    else none

/-- Reads a number: digits without a leading zero, then a fraction and an exponent if it has them. -/
def number? (cs : List Char) : Option Number :=
  let (negative, cs) :=
    match cs with
    | '-' :: rest => (true, rest)
    | cs => (false, cs)
  match splitDigits cs with
  | ([], _) | (0 :: _ :: _, _) => none
  | (whole, '.' :: rest) =>
    match splitDigits rest with
    | ([], _) => none
    | (fraction, rest) =>
      (exponent? rest).map fun exponent => { negative, whole, fraction := some fraction, exponent }
  | (whole, rest) => (exponent? rest).map fun exponent => { negative, whole, exponent }

def word? (letters : List Char) : Option Json :=
  match String.ofList letters with
  | "null" => some .null
  | "true" => some (.bool true)
  | "false" => some (.bool false)
  | _ => none

/-- The lexer: its mode, and the tokens so far. -/
structure Lexer where
  mode : LexerMode := .between
  tokens : Array Token := #[]

namespace Lexer

def emit (t : Token) (l : Lexer) : Lexer := { mode := .between, tokens := l.tokens.push t }

def isNumeralCharacter (c : Char) : Bool :=
  (digit? c).isSome || c = '-' || c = '+' || c = '.' || c = 'e' || c = 'E'

/-- Takes a character that does not belong to the token before it. -/
def start (c : Char) (l : Lexer) : Option Lexer :=
  match c with
  | '[' => some (l.emit .openArray)
  | ']' => some (l.emit .closeArray)
  | '{' => some (l.emit .openObject)
  | '}' => some (l.emit .closeObject)
  | ',' => some (l.emit .comma)
  | ':' => some (l.emit .colon)
  | '"' => some { l with mode := .string {} }
  | ' ' | '\n' | '\r' | '\t' => some { l with mode := .between }
  | c =>
    if (digit? c).isSome || c = '-' then some { l with mode := .numeral [c] }
    else if 'a' ≤ c && c ≤ 'z' then some { l with mode := .word [c] }
    else none

/-- Ends the name or number the lexer is in. -/
def settle (l : Lexer) : Option Lexer :=
  match l.mode with
  | .between => some l
  | .word letters => (word? letters.reverse).map fun v => l.emit (.scalar v)
  | .numeral cs => (number? cs.reverse).map fun n => l.emit (.scalar (.number n))
  | _ => none

/-- The characters that single letters stand for after a backslash. -/
def escaped? : Char → Option Char
  | '"' => some '"'
  | '\\' => some '\\'
  | '/' => some '/'
  | 'b' => some '\x08'
  | 'f' => some '\x0c'
  | 'n' => some '\n'
  | 'r' => some '\r'
  | 't' => some '\t'
  | _ => none

def step (l : Lexer) (c : Char) : Option Lexer :=
  match l.mode with
  | .between => l.start c
  | .word letters =>
    if 'a' ≤ c && c ≤ 'z' then some { l with mode := .word (c :: letters) } else l.settle >>= start c
  | .numeral cs =>
    if isNumeralCharacter c then some { l with mode := .numeral (c :: cs) } else l.settle >>= start c
  | .string d =>
    if c = '"' then some (l.emit (.scalar (.string d.finish)))
    else if c = '\\' then some { l with mode := .escape d }
    else if c.toNat < 0x20 then none
    else some { l with mode := .string (d.push c) }
  | .escape d =>
    if c = 'u' then some { l with mode := .unit d 0 0 }
    else (escaped? c).map fun c => { l with mode := .string (d.push c) }
  | .unit d digits value =>
    (hexDigit? c).map fun x =>
      if digits = 3 then { l with mode := .string (d.pushUnit (16 * value + x)) }
      else { l with mode := .unit d (digits + 1) (16 * value + x) }

end Lexer

/-- The tokens of a text. -/
def tokens? (s : String) : Option (List Token) :=
  (s.toList.foldlM Lexer.step {} >>= Lexer.settle).map (·.tokens.toList)

/-- Where a value goes, with what stands before it there, last first. -/
inductive Place where
  | element (before : List Json)
  | member (before : List (Option String × Json)) (key : Option String)

/-- What a reader has read and what it expects. The places enclose one another, innermost first. -/
inductive Reader where
  | value (outer : List Place)
  /-- After an opening bracket. -/
  | firstElement (outer : List Place)
  | afterElement (items : List Json) (outer : List Place)
  /-- After an opening brace. -/
  | firstKey (outer : List Place)
  | key (before : List (Option String × Json)) (outer : List Place)
  | colon (before : List (Option String × Json)) (key : Option String) (outer : List Place)
  | afterMember (members : List (Option String × Json)) (outer : List Place)
  | finished (value : Json)

namespace Reader

def place (v : Json) : List Place → Reader
  | [] => finished v
  | .element before :: outer => afterElement (v :: before) outer
  | .member before k :: outer => afterMember ((k, v) :: before) outer

def start (outer : List Place) : Token → Option Reader
  | .scalar v => some (place v outer)
  | .openArray => some (firstElement outer)
  | .openObject => some (firstKey outer)
  | _ => none

def step : Reader → Token → Option Reader
  | value outer, t => start outer t
  | firstElement outer, .closeArray => some (place (.array []) outer)
  | firstElement outer, t => start (.element [] :: outer) t
  | afterElement items outer, .comma => some (value (.element items :: outer))
  | afterElement items outer, .closeArray => some (place (.array items.reverse) outer)
  | firstKey outer, .closeObject => some (place (.object []) outer)
  | firstKey outer, .scalar (.string k) => some (colon [] k outer)
  | key before outer, .scalar (.string k) => some (colon before k outer)
  | colon before k outer, .colon => some (value (.member before k :: outer))
  | afterMember members outer, .comma => some (key members outer)
  | afterMember members outer, .closeObject => some (place (.object members.reverse) outer)
  | _, _ => none

def result? : Reader → Option Json
  | finished v => some v
  | _ => none

end Reader

/-- The value of a text, or `none` if the text is not JSON. -/
def parse? (s : String) : Option Json :=
  tokens? s >>= fun tokens => tokens.foldlM Reader.step (.value []) >>= Reader.result?

end MinimalistGrammar.Json
