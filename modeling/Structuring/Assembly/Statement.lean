import Structuring.Assembly.Fault
import Structuring.Bytecode.Instruction
import Structuring.Number.Decimal
import Structuring.Text.Blank

/-! Statements, one to a line.

```text
# comment
:[loop]               label at the current address
> child_name(2)       body of a nested function starts here
push.v self.a
bf [end]
popenv <drop>
```

Operands keep the names they are written with; the layout of the listing gives them numbers
and addresses.
-/

namespace Structuring.Assembly

open Bytecode

inductive Term where
  | plain (operand : Operand)
  | label (name : String)
  | string (value : String)
  | var (name : String) (instanceNumber : Int16)
  | call (name : String) (argumentCount : UInt16)
  deriving DecidableEq, Repr

def Term.extraSize : Term → Nat
  | plain operand => operand.extraSize
  | label _ => 0
  | string _ | var _ _ | call _ _ => 4

structure Draft where
  opcode : Opcode
  type1 : DataType
  type2 : DataType
  term : Term
  deriving DecidableEq, Repr

def Draft.size (draft : Draft) : Nat := 4 + draft.term.extraSize

inductive Statement where
  | label (name : String)
  | child (name : String) (argumentCount : UInt16)
  | instruction (draft : Draft)
  deriving DecidableEq, Repr

/-- Go on from a character: whether a string is open, and whether the next character is
escaped in it. A `#` outside strings starts a comment. -/
def stripCommentFrom (inString escaped : Bool) : List Char → List Char
  | [] => []
  | c :: rest =>
    if escaped then c :: stripCommentFrom inString false rest
    else if c = '\\' && inString then c :: stripCommentFrom inString true rest
    else if c = '"' then c :: stripCommentFrom (!inString) false rest
    else if c = '#' && !inString then []
    else c :: stripCommentFrom inString false rest

def stripComment (line : List Char) : List Char := stripCommentFrom false false line

def bracketed? (text : List Char) : Option (List Char) := do
  let opened ← Text.dropFirst? '[' (Text.trim text)
  let inner ← Text.dropLast? ']' opened
  if inner.isEmpty then none else some inner

def require {α : Type} (reading : Option α) (fault : Fault) : Except Fault α :=
  match reading with
  | some value => .ok value
  | none => .error fault

def readLabel (text : List Char) : Except Fault Statement :=
  (require (bracketed? text) .labelForm).map fun name => .label (String.ofList name)

def readChild (text : List Char) : Except Fault Statement := do
  let (name, count) ←
    match Text.splitOnce? (· == '(') text with
    | some (name, rest) =>
      let count := (Text.dropLast? ')' rest).bind fun count => Number.readUInt16? (Text.trim count)
      (require count .childForm).map fun count => (Text.trim name, count)
    | none => .ok (text, 0)
  if name.isEmpty then .error .childName else .ok (.child (String.ofList name) count)

def readSuffix (suffix : List Char) : Except Fault DataType :=
  let type :=
    match suffix with
    | [c] => DataType.ofSuffix? c
    | _ => none
  require type (.typeSuffix (String.ofList suffix))

def readNumber {α : Type} (read? : List Char → Option α) (text : List Char) : Except Fault α :=
  require (read? text) (.number (String.ofList text))

def unescape : List Char → Except Fault (List Char)
  | [] => .ok []
  | '\\' :: [] => .error .danglingEscape
  | '\\' :: c :: rest =>
    (unescape rest).map fun value =>
      (if c = 'n' then '\n' else if c = 't' then '\t' else c) :: value
  | c :: rest => (unescape rest).map (c :: ·)

def readString (text : List Char) : Except Fault Term := do
  let inner := (Text.dropFirst? '"' text).bind (Text.dropLast? '"')
  let inner ← require inner (.stringForm (String.ofList text))
  let value ← unescape inner
  return .string (String.ofList value)

def readVariable (text : List Char) : Except Fault Term := do
  let (scope, name) ← require (Text.splitOnce? (· == '.') text) (.variableForm (String.ofList text))
  let number ←
    match Scope.ofName? (String.ofList scope) with
    | some scope => .ok scope.number
    | none => readNumber Number.readInt16? scope
  return .var (String.ofList name) number

def readCall (text : List Char) : Except Fault Term := do
  let (name, rest) ← require (Text.splitOnce? (· == '(') text) (.callForm (String.ofList text))
  let count ← require (Text.dropLast? ')' rest) .unclosedCall
  let count ← readNumber Number.readUInt16? (Text.trim count)
  return .call (String.ofList (Text.trim name)) count

def readLabelOperand (text : List Char) : Except Fault Term :=
  (require (bracketed? text) (.labelOperand (String.ofList text))).map fun name =>
    .label (String.ofList name)

/-- The boolean constants may be written as digits. -/
def readBool (text : List Char) : Except Fault Bool :=
  if text = "true".toList ∨ text = "1".toList then .ok true
  else if text = "false".toList ∨ text = "0".toList then .ok false
  else .error (.boolean (String.ofList text))

def readPush (type : DataType) (text : List Char) : Except Fault Term :=
  match type with
  | .int16 => (readNumber Number.readInt16? text).map fun value => .plain (.int16 value)
  | .int32 => (readNumber Number.readInt32? text).map fun value => .plain (.int32 value)
  | .int64 => (readNumber Number.readInt64? text).map fun value => .plain (.int64 value)
  | .double => (readNumber Number.readDouble? text).map fun bits => .plain (.double bits)
  | .single => (readNumber Number.readSingle? text).map fun bits => .plain (.single bits)
  | .bool => (readBool text).map fun value => .plain (.bool value)
  | .string => readString text
  | .variant => readVariable text

def readComparison (text : List Char) : Except Fault Term :=
  (require (Comparison.ofMnemonic? (String.ofList text)) (.comparison (String.ofList text))).map
    fun kind => .plain (.comparison kind)

def readDup (text : List Char) : Except Fault Term :=
  if text.isEmpty then .ok (.plain (.dup 0))
  else (readNumber Number.readUInt8? text).map fun count => .plain (.dup count)

def readOperand (opcode : Opcode) (type : DataType) (text : List Char) : Except Fault Term :=
  match opcode with
  | .b | .bt | .bf | .pushenv => readLabelOperand text
  | .popenv => if text = "<drop>".toList then .ok (.plain .drop) else readLabelOperand text
  | .push | .pushloc | .pushglb | .pushbltn | .pushi => readPush type text
  | .pop => readVariable text
  | .cmp => readComparison text
  | .dup => readDup text
  | .call => readCall text
  | .callv => (readNumber Number.readInt16? text).map fun value => .plain (.int16 value)
  | .signal => .error .signalMnemonic
  | _ => if text.isEmpty then .ok (.plain .none) else .error (.extraOperand opcode.mnemonic)

/-- The operand of a signal; only an asset reference has one, and any other text is passed
over. -/
def readSignal (signal : Signal) (text : List Char) : Except Fault Term :=
  if signal = .pushref then
    (readNumber Number.readInt32? text).map fun value => .plain (.signal signal.number (some value))
  else .ok (.plain (.signal signal.number none))

/-- A mnemonic with its types, and an operand after a blank. The first type is a 32-bit
integer if none is written, and the second one the same as the first. -/
def readInstruction (text : List Char) : Except Fault Draft := do
  let (head, operand) :=
    match Text.splitOnce? Text.isBlank text with
    | some (head, operand) => (head, Text.trim operand)
    | none => (text, [])
  let (mnemonic, suffixes) := Text.splitAll (· == '.') head
  let mnemonic := String.ofList mnemonic
  let types ← suffixes.mapM readSuffix
  let type1 := types[0]?.getD .int32
  let type2 := types[1]?.getD type1
  match Signal.ofMnemonic? mnemonic with
  | some signal =>
    let term ← readSignal signal operand
    return ⟨.signal, type1, type2, term⟩
  | none =>
    let opcode ← require (Opcode.ofMnemonic? mnemonic) (.unknownOpcode mnemonic)
    let term ← readOperand opcode type1 operand
    return ⟨opcode, type1, type2, term⟩

def Statement.read (line : List Char) : Except Fault (Option Statement) :=
  match Text.trim (stripComment line) with
  | [] => .ok none
  | ':' :: rest => (readLabel rest).map some
  | '>' :: rest => (readChild (Text.trim rest)).map some
  | text => (readInstruction text).map fun draft => some (.instruction draft)

end Structuring.Assembly
