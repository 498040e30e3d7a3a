import Structuring.Bytecode.Instruction
import Structuring.Bytecode.Symbols
import Structuring.Number.Shortest
import Structuring.Text.Quoted

/-! Text of instructions.

A table of names is optional: without one, or for a number outside it, the number itself is
shown.
-/

namespace Structuring.Bytecode

open Number

def scopeText (instanceNumber : Int16) : String :=
  match Scope.ofNumber? instanceNumber with
  | some scope => scope.name
  | none => signedDecimal instanceNumber.toInt

/-- The entry of a table, or a mark and the number. -/
def nameText (table : Option NameTable) (mark : String) (id : Nat) : String :=
  match table.bind (·[id]?) with
  | some name => name
  | none => mark ++ "#" ++ decimal id

def stringText (table : Option NameTable) (id : Nat) : String :=
  match table.bind (·[id]?) with
  | some value => Text.quote value
  | none => "str#" ++ decimal id

def Operand.text (symbols : Option Symbols) : Operand → String
  | .none => ""
  | .int16 value => signedDecimal value.toInt
  | .int32 value => signedDecimal value.toInt
  | .int64 value => signedDecimal value.toInt
  | .double bits => doubleText bits
  | .single bits => singleText bits
  | .bool value => if value then "true" else "false"
  | .string id => stringText (symbols.map (·.stringValues)) id
  | .var id instanceNumber =>
    scopeText instanceNumber ++ "." ++ nameText (symbols.map (·.variableNames)) "var" id
  | .comparison kind => kind.mnemonic
  | .branch target => hex target
  | .drop => "<drop>"
  | .dup count => decimal count.toNat
  | .call function argumentCount =>
    nameText (symbols.map (·.functionNames)) "func" function
      ++ "(" ++ decimal argumentCount.toNat ++ ")"
  | .signal number _ => hex number.toNat

def suffixText (type : DataType) : String := "." ++ String.ofList [type.suffix]

namespace Instruction

def headText (inst : Instruction) : String :=
  inst.opcode.mnemonic
    ++ (if inst.opcode.isTyped then suffixText inst.type1 else "")
    ++ (if inst.opcode.isTwiceTyped then suffixText inst.type2 else "")

/-- The text of an instruction. A known signal is shown under its own mnemonic. -/
def text (symbols : Option Symbols) (inst : Instruction) : String :=
  match inst.signal?, inst.operand with
  | some signal, .signal _ extra =>
    signal.mnemonic ++ suffixText inst.type1
      ++ (match extra with
          | some value => " " ++ signedDecimal value.toInt
          | none => "")
  | _, .none => inst.headText
  | _, operand => inst.headText ++ " " ++ operand.text symbols

end Instruction

end Structuring.Bytecode
