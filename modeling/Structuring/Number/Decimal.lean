import Structuring.Number.Binary
import Structuring.Number.Integer
import Structuring.Text.Split

/-! Decimal literals with a fraction and an exponent, and the binary values they denote. -/

namespace Structuring.Number

inductive DecimalLiteral where
  | nan
  | infinite (negative : Bool)
  | finite (negative : Bool) (digits : Nat) (exponent : Int)
  deriving DecidableEq, Repr

def readFixed? (text : List Char) : Option (Nat × Int) :=
  let parts := (Text.splitOnce? (· == '.') text).getD (text, [])
  (readDigits? (parts.1 ++ parts.2)).map fun digits => (digits, -(parts.2.length : Int))

def readExponent? (text : List Char) : Option Int := readInt? text

def readMagnitude? (negative : Bool) (text : List Char) : Option DecimalLiteral :=
  let lowered := text.map Char.toLower
  if lowered == "nan".toList then some .nan
  else if lowered == "inf".toList || lowered == "infinity".toList then some (.infinite negative)
  else
    match Text.splitOnce? (fun c => c == 'e' || c == 'E') text with
    | none => (readFixed? text).map fun fixed => .finite negative fixed.1 fixed.2
    | some (fixed, exponent) => do
      let fixed ← readFixed? fixed
      let exponent ← readExponent? exponent
      return .finite negative fixed.1 (fixed.2 + exponent)

def readLiteral? : List Char → Option DecimalLiteral
  | '-' :: text => readMagnitude? true text
  | '+' :: text => readMagnitude? false text
  | text => readMagnitude? false text

/-- Decimal exponents beyond which a leading digit is out of reach of every format. -/
def decimalReach : Int := 400

def BinaryFormat.ofLiteral (format : BinaryFormat) (literal : DecimalLiteral) : Nat :=
  match literal with
  | .nan => format.quietNaN
  | .infinite negative => format.infinity + if negative then format.signBit else 0
  | .finite negative digits exponent =>
    let leading : Int := (Nat.toDigits 10 digits).length + exponent
    let magnitude :=
      if digits = 0 || leading < -decimalReach then 0
      else if decimalReach < leading then format.infinity
      else
        match exponent with
        | .ofNat n => format.round (digits * Nat.pow 10 n) 1
        | .negSucc n => format.round digits (Nat.pow 10 (n + 1))
    magnitude + if negative then format.signBit else 0

def readDouble? (text : List Char) : Option UInt64 :=
  (readLiteral? text).map fun literal => UInt64.ofNat (BinaryFormat.double.ofLiteral literal)

def readSingle? (text : List Char) : Option UInt32 :=
  (readLiteral? text).map fun literal => UInt32.ofNat (BinaryFormat.single.ofLiteral literal)

end Structuring.Number
