import Structuring.Bytecode.DataType
import Structuring.Bytecode.Opcode

/-! Instructions at their addresses. -/

namespace Structuring.Bytecode

/-- Decoded operand. Floating-point operands are patterns of bits. -/
inductive Operand where
  | none
  | int16 (value : Int16)
  | int32 (value : Int32)
  | int64 (value : Int64)
  | double (bits : UInt64)
  | single (bits : UInt32)
  | bool (value : Bool)
  | string (id : Nat)
  | var (id : Nat) (instanceNumber : Int16)
  | comparison (kind : Comparison)
  /-- A place to go to. -/
  | branch (target : Nat)
  /-- The form of `popenv` that leaves the environment and goes nowhere. -/
  | drop
  | dup (count : UInt8)
  | call (function : Nat) (argumentCount : UInt16)
  | signal (number : UInt16) (extra : Option Int32)
  deriving DecidableEq, Repr

namespace Operand

def extraSize : Operand → Nat
  | int32 _ | single _ | bool _ | string _ | var _ _ | call _ _ => 4
  | int64 _ | double _ => 8
  | signal _ (some _) => 4
  | .none | int16 _ | comparison _ | branch _ | drop | dup _ | signal _ Option.none => 0

def toInt? : Operand → Option Int
  | int16 value => some value.toInt
  | int32 value => some value.toInt
  | int64 value => some value.toInt
  | bool value => some (if value then 1 else 0)
  | _ => Option.none

end Operand

structure Instruction where
  address : Nat
  opcode : Opcode
  type1 : DataType
  type2 : DataType
  operand : Operand
  deriving DecidableEq, Repr

namespace Instruction

def size (inst : Instruction) : Nat := 4 + inst.operand.extraSize

def nextAddress (inst : Instruction) : Nat := inst.address + inst.size

def branchTarget? (inst : Instruction) : Option Nat :=
  match inst.operand with
  | .branch target => if inst.opcode.isBranch then some target else none
  | _ => none

def isBranch (inst : Instruction) : Bool := inst.branchTarget?.isSome

def isJump (inst : Instruction) : Bool := inst.opcode == .b && inst.isBranch

def isReturn (inst : Instruction) : Bool := inst.opcode == .ret || inst.opcode == .exit

def signal? (inst : Instruction) : Option Signal :=
  match inst.operand with
  | .signal number _ => if inst.opcode == .signal then Signal.ofNumber? number else none
  | _ => none

def compares (inst : Instruction) (kind : Comparison) : Bool :=
  inst.opcode == .cmp && inst.operand == .comparison kind

/-- The number that a push of a constant leaves on the stack. -/
def constant? (inst : Instruction) : Option Int :=
  if inst.opcode == .push || inst.opcode == .pushi then inst.operand.toInt? else none

def targetOf? (inst : Instruction) (opcode : Opcode) : Option Nat :=
  if inst.opcode == opcode then inst.branchTarget? else none

end Instruction

end Structuring.Bytecode
