import Structuring.Assembly.Statement
import Structuring.Bytecode.Code

/-! Code entries from listings.

Statements are laid out one after another. Names get numbers as they are met. Labels are
looked up once every line has been read, so a branch may go to a label further down.
-/

namespace Structuring.Assembly

open Bytecode

/-- An operand whose label may still lack an address. -/
inductive PendingOperand where
  | ready (operand : Operand)
  | label (name : String)
  deriving DecidableEq, Repr

structure Placed where
  line : Nat
  address : Nat
  opcode : Opcode
  type1 : DataType
  type2 : DataType
  operand : PendingOperand
  deriving DecidableEq, Repr

structure Layout where
  address : Nat := 0
  symbols : Symbols := {}
  labels : List (String × Nat) := []
  children : List ChildEntry := []
  placed : List Placed := []
  deriving DecidableEq, Repr

def Term.enter (symbols : Symbols) : Term → PendingOperand × Symbols
  | plain operand => (.ready operand, symbols)
  | label name => (.label name, symbols)
  | string value =>
    let entered := symbols.internString value
    (.ready (.string entered.1), entered.2)
  | var name instanceNumber =>
    let entered := symbols.internVariable name
    (.ready (.var entered.1 instanceNumber), entered.2)
  | call name argumentCount =>
    let entered := symbols.internFunction name
    (.ready (.call entered.1 argumentCount), entered.2)

namespace Layout

def add (layout : Layout) (line : Nat) : Statement → Except Error Layout
  | .label name =>
    if (layout.labels.lookup name).isSome then .error ⟨line, .duplicateLabel name⟩
    else .ok { layout with labels := layout.labels ++ [(name, layout.address)] }
  | .child name argumentCount =>
    .ok { layout with children := layout.children ++ [⟨name, layout.address, argumentCount⟩] }
  | .instruction draft =>
    let entered := draft.term.enter layout.symbols
    let placed : Placed :=
      { line, address := layout.address, opcode := draft.opcode, type1 := draft.type1
        type2 := draft.type2, operand := entered.1 }
    .ok { layout with
      address := layout.address + draft.size
      symbols := entered.2
      placed := layout.placed ++ [placed] }

def addLine (layout : Layout) (line : Nat) (text : List Char) : Except Error Layout :=
  match Statement.read text with
  | .error fault => .error ⟨line, fault⟩
  | .ok none => .ok layout
  | .ok (some statement) => layout.add line statement

def addLines (layout : Layout) (line : Nat) : List (List Char) → Except Error Layout
  | [] => .ok layout
  | text :: rest =>
    match layout.addLine line text with
    | .error error => .error error
    | .ok next => next.addLines (line + 1) rest

end Layout

def Placed.resolve (labels : List (String × Nat)) (placed : Placed) : Except Error Instruction :=
  let finish (operand : Operand) : Instruction :=
    { address := placed.address, opcode := placed.opcode, type1 := placed.type1
      type2 := placed.type2, operand }
  match placed.operand with
  | .ready operand => .ok (finish operand)
  | .label name =>
    match labels.lookup name with
    | some target => .ok (finish (.branch target))
    | none => .error ⟨placed.line, .undefinedLabel name⟩

/-- Assemble a listing into the code entry called `name`. -/
def assemble (name : String) (listing : String) : Except Error Code := do
  let layout ← Layout.addLines {} 1 (Text.lines listing.toList)
  let instructions ← layout.placed.mapM (·.resolve layout.labels)
  return { name, instructions, length := layout.address, children := layout.children
           symbols := layout.symbols }

end Structuring.Assembly
