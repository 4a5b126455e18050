import PhraseGraph.Numeral.Literal

/-!
# PhraseGraph.Numeral.Estimate

Whether a decimal is too large to be a finite number, judged by an estimate.

The estimate keeps as many leading digits as fit into 64 bits, rounds them to a number, and
multiplies it by a power of ten that is rounded as well. Close to the largest finite number it
may fall on the other side of the bound than the decimal itself.
-/

namespace PhraseGraph.Estimate

structure Leading where
  digits : Nat
  /-- The power of ten that the last digit counts. -/
  exponent : Int
  deriving DecidableEq

/-- Appends digits as long as the result fits into 64 bits. The rest is what no longer fits. -/
def append : Nat → List Char → Nat × List Char
  | n, [] => (n, [])
  | n, c :: cs =>
    let longer := 10 * n + Literal.digitsValue [c]
    if longer < 1 <<< 64 then append longer cs else (n, c :: cs)

/-- Keeps the leading digits of a decimal without its sign: those before the point that fit, and
then those behind it that fit. A digit left out before the point still counts as a place. -/
def leading (cs : List Char) : Leading :=
  let (whole, fraction, rest) := Literal.splitDigits cs
  let (kept, left) := append 0 whole
  let (digits, left') := append kept fraction
  let exponent := (Literal.readExponent? rest).getD 0
  ⟨digits, exponent + left.length - (fraction.length - left'.length)⟩

def largestPower : Nat := 308

def Leading.isInfinite (l : Leading) : Bool :=
  match l.exponent with
  | .negSucc _ => false
  | .ofNat n =>
    l.digits != 0 &&
      (decide (largestPower < n) ||
        match (Binary64.ofRatio false l.digits 1).mul (Binary64.ofRatio false (Nat.pow 10 n) 1) with
        | .finite _ _ => false
        | _ => true)

/-- Whether the decimal of a text is estimated to be infinite. -/
def isBeyondFinite (cs : List Char) : Bool := (leading (Literal.splitSign cs).2).isInfinite

end PhraseGraph.Estimate
