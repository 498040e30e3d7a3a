import Structuring.Bytecode.Instruction
import Structuring.Bytecode.Symbols

/-! Code entries: one stream of instructions with the function bodies inside it. -/

namespace Structuring.Bytecode

structure ChildEntry where
  name : String
  start : Nat
  argumentCount : UInt16
  deriving DecidableEq, Repr

structure Code where
  name : String
  /-- Instructions in address order. -/
  instructions : List Instruction
  /-- Size in bytes; a branch may go to this address. -/
  length : Nat
  children : List ChildEntry
  symbols : Symbols
  deriving DecidableEq, Repr

namespace Code

def indexAt? (code : Code) (address : Nat) : Option Nat :=
  code.instructions.findIdx? fun inst => inst.address == address

def isBoundary (code : Code) (address : Nat) : Bool :=
  address == code.length || (code.indexAt? address).isSome

end Code

end Structuring.Bytecode
