/-!
# PhraseGraph.Numeral.Binary64

Binary floating point numbers of 64 bits, as exact data.

A finite number is a sign and a *rank*: the nonnegative numbers in ascending order are counted
from zero. A rank splits into an exponent field and a fraction as the bits of the number do, so
that rounding up to the next number is adding one to the rank.

## Main definitions

`Binary64.ofRatio` rounds a ratio to the nearest number, ties to the even significand.
`Binary64.bits?` is the pattern of bits, and `Binary64.shortest` the shortest decimal.
-/

namespace PhraseGraph

/-- A floating point number. All values that are not numbers count as one. -/
inductive Binary64 where
  | notANumber
  | infinite (negative : Bool)
  | finite (negative : Bool) (rank : Fin (2047 <<< 52))
  deriving DecidableEq

namespace Binary64

/-- The significand and the exponent of two of the number with a rank. -/
def parts (rank : Nat) : Nat × Int :=
  let field : Nat := rank >>> 52
  let fraction : Nat := rank % (1 <<< 52)
  if field = 0 then (fraction, -1074) else (1 <<< 52 + fraction, (field : Int) - 1075)

/-- The sign and a rank, which beyond the last finite number means infinity. -/
def ofRank (negative : Bool) (rank : Nat) : Binary64 :=
  if h : rank < 2047 <<< 52 then .finite negative ⟨rank, h⟩ else .infinite negative

/-- The quotient rounded to the nearest integer, ties to even. -/
def roundDiv (num den : Nat) : Nat :=
  let quotient := num / den
  let twice := 2 * (num % den)
  if twice < den ∨ (twice = den ∧ quotient % 2 = 0) then quotient else quotient + 1

def scaled (num den : Nat) (exponent : Int) : Nat × Nat :=
  match exponent with
  | .ofNat n => (num <<< n, den)
  | .negSucc n => (num, den <<< (n + 1))

/-- The exponent of two with which the significand of a positive ratio has 53 bits, or the least
exponent of all. -/
def exponentOf (num den : Nat) : Int :=
  let guess : Int := (num.log2 : Int) - den.log2 - 52
  -- scaled by the guess the ratio lies between 2 ^ 51 and 2 ^ 53
  let (num', den') := scaled num den (-guess)
  let exponent := if num' / den' < 1 <<< 52 then guess - 1 else guess
  max exponent (-1074)

/-- The number nearest to a ratio with a sign, of two the one with an even significand. -/
def ofRatio (negative : Bool) (num den : Nat) : Binary64 :=
  if num = 0 then ofRank negative 0
  else
    let exponent := exponentOf num den
    let (num', den') := scaled num den (-exponent)
    -- the leading bit of the significand adds one to the exponent field
    ofRank negative ((exponent + 1074).toNat <<< 52 + roundDiv num' den')

/-- The number nearest to a decimal with a sign. -/
def ofDecimal (negative : Bool) (digits : Nat) (exponent : Int) : Binary64 :=
  -- beyond the 310th place before the point a decimal is infinite, behind the 330th after it zero
  let place := exponent + (Nat.toDigits 10 digits).length
  if digits = 0 ∨ place < -330 then ofRank negative 0
  else if 310 < place then .infinite negative
  else match exponent with
    | .ofNat n => ofRatio negative (digits * Nat.pow 10 n) 1
    | .negSucc n => ofRatio negative digits (Nat.pow 10 (n + 1))

def bits? : Binary64 → Option Nat
  | .notANumber => none
  | .infinite negative => some ((if negative then 1 <<< 63 else 0) + 2047 <<< 52)
  | .finite negative rank => some ((if negative then 1 <<< 63 else 0) + rank)

/-- Sameness of values: the two zeros are the same, and so are values that are not numbers. -/
def same : Binary64 → Binary64 → Bool
  | .finite n a, .finite m b => a == b && (n == m || a.val == 0)
  | a, b => a == b

def ratio (rank : Nat) : Nat × Nat :=
  let (significand, exponent) := parts rank
  scaled significand 1 exponent

def mul : Binary64 → Binary64 → Binary64
  | .finite n a, .finite m b =>
    let (num, den) := ratio a
    let (num', den') := ratio b
    ofRatio (n != m) (num * num') (den * den')
  | .infinite n, .infinite m => .infinite (n != m)
  | .infinite n, .finite m b => if b.val = 0 then .notANumber else .infinite (n != m)
  | .finite n a, .infinite m => if a.val = 0 then .notANumber else .infinite (n != m)
  | _, _ => .notANumber

/-! ### Shortest decimals -/

/-- The bounds of the decimals that are read as the number with a rank, with the number between
them, as numerators over one denominator. -/
structure Interval where
  low : Nat
  value : Nat
  high : Nat
  denominator : Nat
  /-- Whether the bounds themselves are read as the number. -/
  closed : Bool

/-- The interval of a rank: halfway to the numbers beside it. -/
def interval (rank : Nat) : Interval :=
  let (significand, exponent) := parts rank
  -- below a power of two the numbers are twice as dense
  let below := if rank % (1 <<< 52) = 0 ∧ 1 <<< 52 < rank then 1 else 2
  -- in quarters of the last place, so that the bounds are integers
  let (unit, denominator) := scaled 1 1 (exponent - 2)
  { low := (4 * significand - below) * unit
    value := 4 * significand * unit
    high := (4 * significand + 2) * unit
    denominator
    closed := significand % 2 = 0 }

def Interval.contains (i : Interval) (n : Nat) : Bool :=
  let point := n * i.denominator
  if i.closed then i.low ≤ point && point ≤ i.high else i.low < point && point < i.high

def Interval.inUnits (i : Interval) (exponent : Int) : Interval :=
  match exponent with
  | .ofNat n => { i with denominator := i.denominator * Nat.pow 10 n }
  | .negSucc n =>
    { i with
      low := i.low * Nat.pow 10 (n + 1)
      value := i.value * Nat.pow 10 (n + 1)
      high := i.high * Nat.pow 10 (n + 1) }

/-- The integer in an interval that is nearest to the number, of two the even one. -/
def Interval.nearest? (i : Interval) : Option Nat :=
  -- only the integers beside the number come into question
  let floor := i.value / i.denominator
  let twice := 2 * (i.value % i.denominator)
  let preferFloor := twice < i.denominator || (twice = i.denominator && floor % 2 = 0)
  match i.contains floor, i.contains (floor + 1) with
  | true, true => some (if preferFloor then floor else floor + 1)
  | true, false => some floor
  | false, true => some (floor + 1)
  | false, false => none

/-- The number of digits before the point, or less than one by the number of zeros after it. -/
def Interval.magnitude (i : Interval) : Int :=
  (Nat.toDigits 10 (i.value * Nat.pow 10 400 / i.denominator)).length - 400

/-- The decimal with the fewest digits, at least `count` of them, that is read as the number. -/
def shortestFrom (i : Interval) (magnitude : Int) : Nat → Nat → Nat × Int
  | 0, count => (i.value / i.denominator, magnitude - count)
  | fuel + 1, count =>
    let exponent := magnitude - count
    match (i.inUnits exponent).nearest? with
    | some digits => (digits, exponent)
    | none => shortestFrom i magnitude fuel (count + 1)

def dropZeros : Nat → Nat → Int → Nat × Int
  | 0, digits, exponent => (digits, exponent)
  | fuel + 1, digits, exponent =>
    if digits % 10 = 0 ∧ digits ≠ 0 then dropZeros fuel (digits / 10) (exponent + 1)
    else (digits, exponent)

/-- The fewest digits, and the power of ten they count, that are read as the number with a
rank. -/
def shortest (rank : Nat) : Nat × Int :=
  if rank = 0 then (0, 0)
  else
    let i := interval rank
    -- seventeen digits always do
    let (digits, exponent) := shortestFrom i i.magnitude 17 1
    dropZeros 20 digits exponent

end Binary64

end PhraseGraph
