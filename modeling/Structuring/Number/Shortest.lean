import Structuring.Number.Binary
import Structuring.Number.Integer

/-! The shortest decimal text of a binary floating-point value.

Among the decimals that read back as the value, the text has the fewest digits; among
those it is the nearest one, and the upper one of two equally near.
-/

namespace Structuring.Number

/-- A positive value and the numbers that round to it, from `value - below` to
`value + above`, all over one denominator. The ends belong to the interval if `closed`. -/
structure RoundingInterval where
  value : Nat
  below : Nat
  above : Nat
  denominator : Nat
  closed : Bool

/-- The interval around `significand * 2 ^ exponent`. Below a power of two the patterns lie
twice as close. -/
def BinaryFormat.interval (format : BinaryFormat) (significand : Nat) (exponent : Int) :
    RoundingInterval :=
  let below := if significand = Nat.pow 2 format.fractionBits then 1 else 2
  let quarter := scaleByTwo 1 1 (exponent - 2)
  { value := 4 * significand * quarter.1
    below := below * quarter.1
    above := 2 * quarter.1
    denominator := quarter.2
    closed := significand % 2 = 0 }

namespace RoundingInterval

def within (interval : RoundingInterval) (small large : Nat) : Bool :=
  if interval.closed then small ≤ large else small < large

def belowTen (interval : RoundingInterval) (power : Int) : Bool :=
  let top := interval.value + interval.above
  match power with
  | .ofNat n => !interval.within (interval.denominator * Nat.pow 10 n) top
  | .negSucc n => !interval.within interval.denominator (top * Nat.pow 10 (n + 1))

def leadingPower (interval : RoundingInterval) : Nat → Int → Int
  | 0, power => power
  | fuel + 1, power =>
    if interval.belowTen power then power else interval.leadingPower fuel (power + 1)

/-- The multiple of `10 ^ power` chosen for the value, if one of its two neighbours among
these multiples lies in the interval. -/
def gridPoint? (interval : RoundingInterval) (power : Int) : Option Nat :=
  let scale : Nat × Nat :=
    match power with
    | .ofNat n => (1, interval.denominator * Nat.pow 10 n)
    | .negSucc n => (Nat.pow 10 (n + 1), interval.denominator)
  let value := interval.value * scale.1
  let lower := value / scale.2
  let rest := value % scale.2
  let down := interval.within rest (interval.below * scale.1)
  let up := interval.within scale.2 (rest + interval.above * scale.1)
  if up && (!down || scale.2 ≤ 2 * rest) then some (lower + 1)
  else if down then some lower
  else none

/-- The first grid point, going to finer and finer powers of ten. -/
def shortestFrom (interval : RoundingInterval) : Nat → Int → Nat × Int
  | 0, power => (0, power)
  | fuel + 1, power =>
    match interval.gridPoint? power with
    | some digits => (digits, power)
    | none => interval.shortestFrom fuel (power - 1)

def shortest (interval : RoundingInterval) : Nat × Int :=
  let magnitude : Int := (interval.value.log2 : Int) - interval.denominator.log2
  -- Three tenths of the binary magnitude, rounded down, is at or below the decimal one.
  let start := (magnitude * 1233).fdiv 4096 - 1
  interval.shortestFrom 20 (interval.leadingPower 8 start - 1)

end RoundingInterval

def dropTrailingZeros (digits : List Char) : List Char :=
  (digits.reverse.dropWhile (· == '0')).reverse

/-- Write `0.d₁d₂… * 10 ^ point` without an exponent, keeping one place after the point. -/
def positional (digits : List Char) (point : Int) : List Char :=
  match point with
  | .ofNat whole =>
    let padded := digits ++ List.replicate (whole - digits.length) '0'
    let fraction := padded.drop whole
    (if whole = 0 then ['0'] else padded.take whole) ++ '.' ::
      (if fraction.isEmpty then ['0'] else fraction)
  | .negSucc zeros => '0' :: '.' :: List.replicate (zeros + 1) '0' ++ digits

def scientific (digits : List Char) (exponent : Int) : List Char :=
  let mantissa :=
    match digits with
    | first :: second :: rest => first :: '.' :: second :: rest
    | short => short
  mantissa ++ 'e' :: (signedDecimal exponent).toList

/-- Values from `10 ^ leastPositional` up to `10 ^ mostPositional` have no exponent. -/
def leastPositional : Int := -4

def mostPositional : Int := 16

def BinaryValue.text (format : BinaryFormat) : BinaryValue → String
  | .nan => "NaN"
  | .infinite negative => (if negative then "-" else "") ++ "inf"
  | .finite negative significand exponent =>
    let sign := if negative then "-" else ""
    if significand = 0 then sign ++ "0.0"
    else
      let shortest := (format.interval significand exponent).shortest
      let all := Nat.toDigits 10 shortest.1
      let leading : Int := shortest.2 + all.length - 1
      let digits := dropTrailingZeros all
      sign ++ String.ofList
        (if leastPositional ≤ leading ∧ leading < mostPositional then
           positional digits (leading + 1)
         else scientific digits leading)

def doubleText (bits : UInt64) : String :=
  (BinaryFormat.double.decode bits.toNat).text BinaryFormat.double

def singleText (bits : UInt32) : String :=
  (BinaryFormat.single.decode bits.toNat).text BinaryFormat.single

end Structuring.Number
