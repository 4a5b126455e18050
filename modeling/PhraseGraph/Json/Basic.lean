import PhraseGraph.Numeral.Binary64

/-!
# PhraseGraph.Json.Basic

JSON values and their compact text.

The members of an object keep their order. A number is written with the fewest digits that are
read as it, and always with a point or a power of ten; infinities and what is not a number are
written as `null`.
-/

namespace PhraseGraph

/-- A JSON value. Counts are numbers without a point. -/
inductive Json where
  | null
  | bool (b : Bool)
  | count (n : Nat)
  | number (x : Binary64)
  | string (s : String)
  | array (elements : List Json)
  | object (members : List (String × Json))
  deriving Inhabited

namespace Json

/-! ### Numbers -/

/-- Numbers with at most so many places before the point are written without a power of ten. -/
def placesBefore : Int := 16

/-- Numbers with fewer than so many zeros after the point are written without a power of ten. -/
def zerosAfter : Int := 5

/-- The text of a power of ten, always with a sign. -/
def writePower (exponent : Int) : List Char :=
  'e' :: (if exponent < 0 then '-' else '+') :: Nat.toDigits 10 exponent.natAbs

/-- The text of a number in decimal digits, of which `place` stand before the point. -/
def writeDigits (digits : List Char) (place : Int) : List Char :=
  let count : Int := digits.length
  if count ≤ place ∧ place ≤ placesBefore then
    digits ++ List.replicate (place - count).toNat '0' ++ ['.', '0']
  else if 0 < place ∧ place ≤ placesBefore then
    digits.take place.toNat ++ '.' :: digits.drop place.toNat
  else if -zerosAfter < place ∧ place ≤ 0 then
    '0' :: '.' :: List.replicate (-place).toNat '0' ++ digits
  else
    let fraction := digits.drop 1
    digits.take 1 ++ (if fraction.isEmpty then [] else '.' :: fraction) ++ writePower (place - 1)

def writeNumber : Binary64 → List Char
  | .notANumber => "null".toList
  | .infinite _ => "null".toList
  | .finite negative rank =>
    let (digits, exponent) := Binary64.shortest rank
    let text := Nat.toDigits 10 digits
    (if negative then ['-'] else []) ++
      (if rank.val = 0 then "0.0".toList else writeDigits text (text.length + exponent))

/-! ### Strings -/

/-- A character between quotes. Quotes, backslashes and control characters are escaped. -/
def escape (c : Char) : List Char :=
  if c = '"' then ['\\', '"']
  else if c = '\\' then ['\\', '\\']
  else if c = '\x08' then ['\\', 'b']
  else if c = '\t' then ['\\', 't']
  else if c = '\n' then ['\\', 'n']
  else if c = '\x0c' then ['\\', 'f']
  else if c = '\r' then ['\\', 'r']
  else if c.toNat < 0x20 then
    ['\\', 'u', '0', '0', Nat.digitChar (c.toNat / 16), Nat.digitChar (c.toNat % 16)]
  else [c]

def writeString (s : String) : List Char := '"' :: s.toList.flatMap escape ++ ['"']

/-! ### Values -/

mutual

/-- The compact text of a value. -/
def write : Json → List Char
  | .null => "null".toList
  | .bool b => (if b then "true" else "false").toList
  | .count n => Nat.toDigits 10 n
  | .number x => writeNumber x
  | .string s => writeString s
  | .array [] => ['[', ']']
  | .array (e :: es) => '[' :: write e ++ writeElements es ++ [']']
  | .object [] => ['\x7b', '\x7d']
  | .object ((key, v) :: ms) =>
    '\x7b' :: writeString key ++ ':' :: write v ++ writeMembers ms ++ ['\x7d']

/-- The elements after the first, each behind a comma. -/
def writeElements : List Json → List Char
  | [] => []
  | e :: es => ',' :: write e ++ writeElements es

def writeMembers : List (String × Json) → List Char
  | [] => []
  | (key, v) :: ms => ',' :: writeString key ++ ':' :: write v ++ writeMembers ms

end

def render (j : Json) : String := String.ofList (write j)

end Json

end PhraseGraph
