import Structuring.Number.Integer

/-! What can be wrong with a listing. -/

namespace Structuring.Assembly

inductive Fault where
  | labelForm
  | childForm
  | childName
  | typeSuffix (suffix : String)
  | unknownOpcode (mnemonic : String)
  | labelOperand (found : String)
  | number (found : String)
  | boolean (found : String)
  | variableForm (found : String)
  | callForm (found : String)
  | unclosedCall
  | stringForm (found : String)
  | danglingEscape
  | comparison (found : String)
  | signalMnemonic
  | extraOperand (mnemonic : String)
  | undefinedLabel (label : String)
  | duplicateLabel (label : String)
  deriving DecidableEq, Repr

def Fault.text : Fault → String
  | labelForm => "expected `:[label]`"
  | childForm => "expected `> name(argc)`"
  | childName => "child entry needs a name"
  | typeSuffix suffix => "bad type suffix `." ++ suffix ++ "`"
  | unknownOpcode mnemonic => "unknown opcode `" ++ mnemonic ++ "`"
  | labelOperand found => "expected `[label]`, found `" ++ found ++ "`"
  | number found => "bad numeric operand `" ++ found ++ "`"
  | boolean found => "bad boolean `" ++ found ++ "`"
  | variableForm found => "expected `scope.name`, found `" ++ found ++ "`"
  | callForm found => "expected `name(argc)`, found `" ++ found ++ "`"
  | unclosedCall => "unclosed argument count"
  | stringForm found => "expected quoted string, found `" ++ found ++ "`"
  | danglingEscape => "dangling escape in string"
  | comparison found => "unknown comparison `" ++ found ++ "`"
  | signalMnemonic => "use the extended mnemonic (e.g. `chkindex.e`) instead of `break`"
  | extraOperand mnemonic => "`" ++ mnemonic ++ "` takes no operand"
  | undefinedLabel label => "undefined label `" ++ label ++ "`"
  | duplicateLabel label => "label `" ++ label ++ "` defined twice"

structure Error where
  line : Nat
  fault : Fault
  deriving DecidableEq, Repr

def Error.text (error : Error) : String :=
  "line " ++ Number.decimal error.line ++ ": " ++ error.fault.text

end Structuring.Assembly
