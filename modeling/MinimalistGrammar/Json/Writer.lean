import MinimalistGrammar.Json.Basic

/-!
Writing JSON values without blanks. Quotes, backslashes and control characters are escaped, and all other
characters stand for themselves.
-/

namespace MinimalistGrammar.Json

def hexDigit (n : Nat) : Char := (Nat.toDigits 16 n).headD '0'

/-- The letter after a backslash that stands for a character. -/
def escapeLetter? : Char → Option Char
  | '"' => some '"'
  | '\\' => some '\\'
  | '\x08' => some 'b'
  | '\x0c' => some 'f'
  | '\n' => some 'n'
  | '\r' => some 'r'
  | '\t' => some 't'
  | _ => none

def escape (c : Char) : List Char :=
  match escapeLetter? c with
  | some e => ['\\', e]
  | none =>
    if c.toNat < 0x20 then ['\\', 'u', '0', '0', hexDigit (c.toNat / 16), hexDigit (c.toNat % 16)] else [c]

def quote (s : String) : String :=
  (s.foldl (fun acc c => (escape c).foldl String.push acc) "\"").push '"'

def Number.text (n : Number) : String :=
  let digits (ds : List Nat) : String := ds.foldl (fun acc d => acc ++ toString d) ""
  (if n.negative then "-" else "") ++ digits n.whole ++
    (n.fraction.elim "" fun ds => "." ++ digits ds) ++ (n.exponent.elim "" fun e => "e" ++ toString e)

mutual

/-- Writes a value at the end of a text. -/
def writeTo (acc : String) : Json → String
  | null => acc ++ "null"
  | bool b => acc ++ (if b then "true" else "false")
  | number n => acc ++ n.text
  | string s => acc ++ quote (s.getD "")
  | array [] => acc ++ "[]"
  | array (v :: rest) => (writeItemsTo (writeTo (acc ++ "[") v) rest).push ']'
  | object [] => acc ++ "\x7b\x7d"
  | object ((k, v) :: rest) =>
    (writeMembersTo (writeTo (acc ++ "\x7b" ++ quote (k.getD "") ++ ":") v) rest).push '}'

def writeItemsTo (acc : String) : List Json → String
  | [] => acc
  | v :: rest => writeItemsTo (writeTo (acc.push ',') v) rest

def writeMembersTo (acc : String) : List (Option String × Json) → String
  | [] => acc
  | (k, v) :: rest => writeMembersTo (writeTo (acc ++ "," ++ quote (k.getD "") ++ ":") v) rest

end

def write (v : Json) : String := writeTo "" v

end MinimalistGrammar.Json
