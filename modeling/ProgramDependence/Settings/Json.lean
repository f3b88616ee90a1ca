/-!
# JSON

Values of the JSON data format and a reader that accepts exactly one value in a text.  Of several
entries of an object with one key the last one counts.
-/

namespace ProgramDependence

/-- A JSON value.  A number with a fraction or an exponent keeps its text, and so does the word for
a number that is not finite. -/
inductive Json where
  | null
  | bool (b : Bool)
  | number (n : Int)
  | decimal (text : String)
  | string (s : String)
  | array (items : List Json)
  | object (entries : List (String × Json))
  deriving Inhabited

namespace Json

def isDigit (c : Char) : Bool :=
  '0' ≤ c && c ≤ '9'

def digitsValue (ds : List Char) : Nat :=
  ds.foldl (fun n d => n * 10 + (d.toNat - '0'.toNat)) 0

/-- The words for numbers that are not finite. -/
def numberWords : List String :=
  ["NaN", "Infinity", "-Infinity"]

/-- Whether the number of double precision that is nearest to a decimal is zero.  The least positive
one is `2 ^ -1074`, and what is at most half of it is rounded down. -/
def underflows (t : List Char) : Bool :=
  let mantissa := t.takeWhile fun c => c ≠ 'e' && c ≠ 'E'
  let exponent := t.drop (mantissa.length + 1)
  let digits := mantissa.filter isDigit
  let places := ((mantissa.dropWhile (· ≠ '.')).drop 1).length
  let shift := digitsValue (exponent.filter isDigit)
  -- The decimal is its digits divided by this power of ten, or it is an integer.
  let power := if exponent.head? = some '-' then places + shift else places - shift
  digits.length + 324 < power || digitsValue digits * Nat.pow 2 1075 ≤ Nat.pow 10 power

/-- Null, no, zero and everything empty count as no. -/
def truthy : Json → Bool
  | null => false
  | bool b => b
  | number n => n ≠ 0
  | decimal t => numberWords.contains t || !underflows t.toList
  | string s => s ≠ ""
  | array items => !items.isEmpty
  | object entries => !entries.isEmpty

/-! ## Reading -/

def isSpace (c : Char) : Bool :=
  c = ' ' || c = '\t' || c = '\n' || c = '\r'

def skip (cs : List Char) : List Char :=
  cs.dropWhile isSpace

def readWord (word : String) (cs : List Char) : Option (List Char) :=
  if word.toList.isPrefixOf cs then some (cs.drop word.length) else none

def hexDigit? (c : Char) : Option Nat :=
  if '0' ≤ c && c ≤ '9' then some (c.toNat - '0'.toNat)
  else if 'a' ≤ c && c ≤ 'f' then some (c.toNat - 'a'.toNat + 10)
  else if 'A' ≤ c && c ≤ 'F' then some (c.toNat - 'A'.toNat + 10)
  else none

def hexFour? (a b c d : Char) : Option Nat := do
  return (((← hexDigit? a) * 16 + (← hexDigit? b)) * 16 + (← hexDigit? c)) * 16 + (← hexDigit? d)

def escape? : Char → Option Char
  | '\x22' => some '\x22'
  | '\\' => some '\\'
  | '/' => some '/'
  | 'b' => some '\x08'
  | 'f' => some '\x0c'
  | 'n' => some '\n'
  | 'r' => some '\r'
  | 't' => some '\t'
  | _ => none

/-- Join the two halves of a character beyond the first plane. -/
def joinSurrogates (high low : Nat) : Char :=
  Char.ofNat (0x10000 + (high - 0xd800) * 0x400 + (low - 0xdc00))

def readString : Nat → List Char → List Char → Option (String × List Char)
  | 0, _, _ => none
  | fuel + 1, cs, done =>
    match cs with
    | '\x22' :: rest => some (String.ofList done.reverse, rest)
    | '\\' :: 'u' :: a :: b :: c :: d :: rest => do
      let n ← hexFour? a b c d
      match rest with
      | '\\' :: 'u' :: e :: f :: g :: h :: rest' =>
        let m ← hexFour? e f g h
        if 0xd800 ≤ n && n < 0xdc00 && 0xdc00 ≤ m && m < 0xe000 then
          readString fuel rest' (joinSurrogates n m :: done)
        else readString fuel rest (Char.ofNat n :: done)
      | _ => readString fuel rest (Char.ofNat n :: done)
    | '\\' :: c :: rest => do readString fuel rest ((← escape? c) :: done)
    | c :: rest => if c.toNat < 0x20 || c = '\\' then none else readString fuel rest (c :: done)
    | [] => none

/-- Read the fraction of a number: a point and at least one digit. -/
def readFraction (cs : List Char) : List Char × List Char :=
  match cs with
  | '.' :: rest =>
    let ds := rest.takeWhile isDigit
    if ds.isEmpty then ([], cs) else ('.' :: ds, rest.drop ds.length)
  | _ => ([], cs)

/-- Read the exponent of a number: its letter, an optional sign and at least one digit. -/
def readExponent (cs : List Char) : List Char × List Char :=
  match cs with
  | e :: rest =>
    if e = 'e' || e = 'E' then
      let sign := rest.take 1 |>.filter fun c => c = '+' || c = '-'
      let ds := (rest.drop sign.length).takeWhile isDigit
      if ds.isEmpty then ([], cs)
      else (e :: sign ++ ds, rest.drop (sign.length + ds.length))
    else ([], cs)
  | [] => ([], cs)

/-- Read a number: no leading zeros, and an integer unless a fraction or an exponent follows. -/
def readNumber (cs : List Char) : Option (Json × List Char) :=
  let negative := cs.head? = some '-'
  let body := if negative then cs.drop 1 else cs
  let ds := match body with
    | '0' :: _ => ['0']
    | _ => body.takeWhile isDigit
  if ds.isEmpty then none
  else
    let (fraction, afterFraction) := readFraction (body.drop ds.length)
    let (exponent, rest) := readExponent afterFraction
    if fraction.isEmpty && exponent.isEmpty then
      let n : Int := digitsValue ds
      some (number (if negative then -n else n), rest)
    else
      some (decimal (String.ofList ((if negative then ['-'] else []) ++ ds ++ fraction ++ exponent)),
        rest)

mutual

def readValue : Nat → List Char → Option (Json × List Char)
  | 0, _ => none
  | fuel + 1, cs =>
    match cs with
    | '\x22' :: rest => do
      let (s, rest) ← readString (rest.length + 1) rest []
      return (string s, rest)
    | '[' :: rest =>
      match skip rest with
      | ']' :: rest => some (array [], rest)
      | rest => readItems fuel rest []
    | '\x7b' :: rest =>
      match skip rest with
      | '\x7d' :: rest => some (object [], rest)
      | rest => readEntries fuel rest []
    | 'n' :: _ => do return (null, ← readWord "null" cs)
    | 't' :: _ => do return (bool true, ← readWord "true" cs)
    | 'f' :: _ => do return (bool false, ← readWord "false" cs)
    | _ => (numberWords.findSome? fun w => (readWord w cs).map (decimal w, ·)) <|> readNumber cs

def readItems : Nat → List Char → List Json → Option (Json × List Char)
  | 0, _, _ => none
  | fuel + 1, cs, done => do
    let (v, rest) ← readValue fuel cs
    match skip rest with
    | ',' :: rest => readItems fuel (skip rest) (v :: done)
    | ']' :: rest => return (array (v :: done).reverse, rest)
    | _ => none

def readEntries : Nat → List Char → List (String × Json) → Option (Json × List Char)
  | 0, _, _ => none
  | fuel + 1, cs, done =>
    match cs with
    | '\x22' :: rest => do
      let (key, rest) ← readString (rest.length + 1) rest []
      match skip rest with
      | ':' :: rest =>
        let (v, rest) ← readValue fuel (skip rest)
        match skip rest with
        | ',' :: rest => readEntries fuel (skip rest) ((key, v) :: done)
        | '\x7d' :: rest => return (object ((key, v) :: done).reverse, rest)
        | _ => none
      | _ => none
    | _ => none

end

def parse? (text : String) : Option Json := do
  let cs := text.toList
  let (v, rest) ← readValue (cs.length + 1) (skip cs)
  if (skip rest).isEmpty then return v
  none

end Json

end ProgramDependence
