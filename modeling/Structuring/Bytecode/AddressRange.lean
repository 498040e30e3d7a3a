import Structuring.Number.Integer

/-! Ranges of byte addresses within a code entry. -/

namespace Structuring.Bytecode

/-- The addresses from `start` up to but not including `stop`. -/
structure AddressRange where
  start : Nat
  stop : Nat
  deriving DecidableEq, Repr

namespace AddressRange

def point (address : Nat) : AddressRange := ⟨address, address⟩

def text (range : AddressRange) : String := Number.hex range.start ++ ".." ++ Number.hex range.stop

end AddressRange

end Structuring.Bytecode
