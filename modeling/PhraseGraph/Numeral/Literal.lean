import PhraseGraph.Numeral.Binary64

/-!
# PhraseGraph.Numeral.Literal

Decimal literals: a sign, digits with a point among them, and a power of ten; or one of the
words for infinity and for what is not a number, in capitals or not.
-/

namespace PhraseGraph

/-- What a literal stands for, before it is rounded. -/
inductive Literal where
  | notANumber
  | infinite (negative : Bool)
  | decimal (negative : Bool) (digits : Nat) (exponent : Int)
  deriving DecidableEq

namespace Literal

def digitsValue (cs : List Char) : Nat := cs.foldl (fun n c => 10 * n + (c.toNat - '0'.toNat)) 0

/-- An optional sign, and what follows it. -/
def splitSign : List Char → Bool × List Char
  | '+' :: cs => (false, cs)
  | '-' :: cs => (true, cs)
  | cs => (false, cs)

/-- The power of ten at the end of a literal: nothing, or `e` and an integer. -/
def readExponent? : List Char → Option Int
  | [] => some 0
  | e :: cs =>
    let (negative, digits) := splitSign cs
    if (e == 'e' || e == 'E') && !digits.isEmpty && digits.all Char.isDigit then
      some (if negative then -(digitsValue digits : Int) else digitsValue digits)
    else none

/-- The digits at the start, the digits behind a point that follows them, and what is left. -/
def splitDigits (cs : List Char) : List Char × List Char × List Char :=
  let whole := cs.takeWhile Char.isDigit
  match cs.dropWhile Char.isDigit with
  | '.' :: rest => (whole, rest.takeWhile Char.isDigit, rest.dropWhile Char.isDigit)
  | rest => (whole, [], rest)

/-- Digits with at most one point, at least one digit, and a power of ten. -/
def readDecimal? (negative : Bool) (cs : List Char) : Option Literal :=
  let (whole, fraction, rest) := splitDigits cs
  if whole.isEmpty && fraction.isEmpty then none
  else (readExponent? rest).map fun exponent =>
    .decimal negative (digitsValue (whole ++ fraction)) (exponent - fraction.length)

def readWord? (negative : Bool) (cs : List Char) : Option Literal :=
  let word := String.ofList (cs.map Char.toLower)
  if word = "inf" ∨ word = "infinity" then some (.infinite negative)
  else if word = "nan" then some .notANumber
  else none

def read? (cs : List Char) : Option Literal :=
  let (negative, cs) := splitSign cs
  (readDecimal? negative cs).orElse fun _ => readWord? negative cs

/-- The number nearest to what the literal stands for. -/
def value : Literal → Binary64
  | .notANumber => .notANumber
  | .infinite negative => .infinite negative
  | .decimal negative digits exponent => .ofDecimal negative digits exponent

end Literal

def Binary64.read? (text : String) : Option Binary64 := (Literal.read? text.toList).map Literal.value

end PhraseGraph
