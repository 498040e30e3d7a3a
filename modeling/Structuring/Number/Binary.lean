/-! Binary floating-point formats, as patterns of bits.

A finite pattern stands for `significand * 2 ^ exponent`. Rounding goes to the nearest
pattern, and a tie to the even one.
-/

namespace Structuring.Number

/-- A format by the width of its significand, leading bit included, and of its exponent. -/
structure BinaryFormat where
  significandBits : Nat
  exponentBits : Nat

namespace BinaryFormat

def single : BinaryFormat := ⟨24, 8⟩

def double : BinaryFormat := ⟨53, 11⟩

def fractionBits (format : BinaryFormat) : Nat := format.significandBits - 1

def leastExponent (format : BinaryFormat) : Int :=
  3 - Nat.pow 2 (format.exponentBits - 1) - format.significandBits

def infinity (format : BinaryFormat) : Nat :=
  (Nat.pow 2 format.exponentBits - 1) * Nat.pow 2 format.fractionBits

def quietNaN (format : BinaryFormat) : Nat :=
  format.infinity + Nat.pow 2 (format.fractionBits - 1)

def signBit (format : BinaryFormat) : Nat := Nat.pow 2 (format.exponentBits + format.fractionBits)

end BinaryFormat

/-- What a pattern stands for. A finite value is `significand * 2 ^ exponent`. -/
inductive BinaryValue where
  | nan
  | infinite (negative : Bool)
  | finite (negative : Bool) (significand : Nat) (exponent : Int)
  deriving DecidableEq, Repr

def BinaryFormat.decode (format : BinaryFormat) (bits : Nat) : BinaryValue :=
  let negative := format.signBit ≤ bits
  let magnitude := bits % format.signBit
  let field := magnitude / Nat.pow 2 format.fractionBits
  let fraction := magnitude % Nat.pow 2 format.fractionBits
  if format.infinity < magnitude then .nan
  else if magnitude = format.infinity then .infinite negative
  else if field = 0 then .finite negative fraction format.leastExponent
  else
    .finite negative (Nat.pow 2 format.fractionBits + fraction)
      (format.leastExponent + (field - 1 : Nat))

/-- The quotient rounded to the nearest whole number, a tie to the even one. -/
def roundDiv (numerator denominator : Nat) : Nat :=
  let quotient := numerator / denominator
  let twice := 2 * (numerator % denominator)
  if twice < denominator then quotient
  else if denominator < twice then quotient + 1
  else quotient + quotient % 2

def scaleByTwo (numerator denominator : Nat) (exponent : Int) : Nat × Nat :=
  match exponent with
  | .ofNat n => (numerator * Nat.pow 2 n, denominator)
  | .negSucc n => (numerator, denominator * Nat.pow 2 (n + 1))

def BinaryFormat.round (format : BinaryFormat) (numerator denominator : Nat) : Nat :=
  -- The quotient lies between `2 ^ (estimate - 1)` and `2 ^ (estimate + 1)`.
  let estimate : Int := (numerator.log2 : Int) - denominator.log2
  let scaled := scaleByTwo numerator denominator (-estimate)
  let magnitude := if scaled.1 < scaled.2 then estimate - 1 else estimate
  let exponent := max (magnitude - format.fractionBits) format.leastExponent
  let places := scaleByTwo numerator denominator (-exponent)
  let significand := roundDiv places.1 places.2
  -- The leading bit of the significand raises the exponent field by one, and a significand
  -- rounded up to the next power of two raises it once more.
  let bits := (exponent - format.leastExponent).toNat * Nat.pow 2 format.fractionBits + significand
  min bits format.infinity

end Structuring.Number
