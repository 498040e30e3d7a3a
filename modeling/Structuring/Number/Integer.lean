/-! Reading and writing whole numbers.

Digits are the ten ASCII ones. A number may carry a sign; `-` needs a signed width.
-/

namespace Structuring.Number

def readDigits? (digits : List Char) : Option Nat :=
  if digits.isEmpty || !digits.all Char.isDigit then none
  else some (digits.foldl (fun value c => 10 * value + (c.toNat - '0'.toNat)) 0)

def readInt? : List Char → Option Int
  | '-' :: digits => (readDigits? digits).map fun value => -(value : Int)
  | '+' :: digits => (readDigits? digits).map fun value => (value : Int)
  | digits => (readDigits? digits).map fun value => (value : Int)

def readNat? : List Char → Option Nat
  | '+' :: digits => readDigits? digits
  | digits => readDigits? digits

def readInt16? (text : List Char) : Option Int16 :=
  (readInt? text).bind fun value =>
    if -0x8000 ≤ value ∧ value < 0x8000 then some (Int16.ofInt value) else none

def readInt32? (text : List Char) : Option Int32 :=
  (readInt? text).bind fun value =>
    if -0x80000000 ≤ value ∧ value < 0x80000000 then some (Int32.ofInt value) else none

def readInt64? (text : List Char) : Option Int64 :=
  (readInt? text).bind fun value =>
    if -0x8000000000000000 ≤ value ∧ value < 0x8000000000000000 then some (Int64.ofInt value) else none

def readUInt8? (text : List Char) : Option UInt8 :=
  (readNat? text).bind fun value => if value < 0x100 then some (UInt8.ofNat value) else none

def readUInt16? (text : List Char) : Option UInt16 :=
  (readNat? text).bind fun value => if value < 0x10000 then some (UInt16.ofNat value) else none

def decimal (value : Nat) : String := String.ofList (Nat.toDigits 10 value)

def signedDecimal : Int → String
  | .ofNat value => decimal value
  | .negSucc value => "-" ++ decimal (value + 1)

def hexDigits (value : Nat) : String := String.ofList (Nat.toDigits 16 value)

def hex (value : Nat) : String := "0x" ++ hexDigits value

end Structuring.Number
