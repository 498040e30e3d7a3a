/-! Operation codes, and the signals that extend the `break` code. -/

namespace Structuring.Bytecode

inductive Opcode where
  | conv | mul | div | rem | mod | add | sub | and | or | xor | neg | not | shl | shr | cmp
  | pop | dup | ret | exit | popz
  | b | bt | bf | pushenv | popenv
  | push | pushloc | pushglb | pushbltn | pushi
  | call | callv | signal
  deriving DecidableEq, Repr

namespace Opcode

def all : List Opcode :=
  [conv, mul, div, rem, mod, add, sub, and, or, xor, neg, not, shl, shr, cmp, pop, dup, ret, exit,
   popz, b, bt, bf, pushenv, popenv, push, pushloc, pushglb, pushbltn, pushi, call, callv, signal]

def number : Opcode → Nat
  | conv => 0x07
  | mul => 0x08
  | div => 0x09
  | rem => 0x0A
  | mod => 0x0B
  | add => 0x0C
  | sub => 0x0D
  | and => 0x0E
  | or => 0x0F
  | xor => 0x10
  | neg => 0x11
  | not => 0x12
  | shl => 0x13
  | shr => 0x14
  | cmp => 0x15
  | pop => 0x45
  | dup => 0x86
  | ret => 0x9C
  | exit => 0x9D
  | popz => 0x9E
  | b => 0xB6
  | bt => 0xB7
  | bf => 0xB8
  | pushenv => 0xBA
  | popenv => 0xBB
  | push => 0xC0
  | pushloc => 0xC1
  | pushglb => 0xC2
  | pushbltn => 0xC3
  | pushi => 0x84
  | call => 0xD9
  | callv => 0x99
  | signal => 0xFF

def mnemonic : Opcode → String
  | conv => "conv"
  | mul => "mul"
  | div => "div"
  | rem => "rem"
  | mod => "mod"
  | add => "add"
  | sub => "sub"
  | and => "and"
  | or => "or"
  | xor => "xor"
  | neg => "neg"
  | not => "not"
  | shl => "shl"
  | shr => "shr"
  | cmp => "cmp"
  | pop => "pop"
  | dup => "dup"
  | ret => "ret"
  | exit => "exit"
  | popz => "popz"
  | b => "b"
  | bt => "bt"
  | bf => "bf"
  | pushenv => "pushenv"
  | popenv => "popenv"
  | push => "push"
  | pushloc => "pushloc"
  | pushglb => "pushglb"
  | pushbltn => "pushbltn"
  | pushi => "pushi"
  | call => "call"
  | callv => "callv"
  | signal => "break"

def ofMnemonic? (text : String) : Option Opcode := all.find? fun opcode => opcode.mnemonic == text

def isBranch : Opcode → Bool
  | b | bt | bf | pushenv | popenv => true
  | _ => false

def isTyped (opcode : Opcode) : Bool := !opcode.isBranch

def isTwiceTyped : Opcode → Bool
  | conv | mul | div | rem | mod | add | sub | and | or | xor | shl | shr | cmp | pop => true
  | _ => false

end Opcode

/-- An operation encoded as `break` with a signal number. -/
inductive Signal where
  | chkindex | pushaf | popaf | pushac | setowner | isstaticok | setstatic | savearef | restorearef
  | chknullish | pushref
  deriving DecidableEq, Repr

namespace Signal

def all : List Signal :=
  [chkindex, pushaf, popaf, pushac, setowner, isstaticok, setstatic, savearef, restorearef,
   chknullish, pushref]

def number : Signal → UInt16
  | chkindex => 0xFFFF
  | pushaf => 0xFFFE
  | popaf => 0xFFFD
  | pushac => 0xFFFC
  | setowner => 0xFFFB
  | isstaticok => 0xFFFA
  | setstatic => 0xFFF9
  | savearef => 0xFFF8
  | restorearef => 0xFFF7
  | chknullish => 0xFFF6
  | pushref => 0xFFF5

def mnemonic : Signal → String
  | chkindex => "chkindex"
  | pushaf => "pushaf"
  | popaf => "popaf"
  | pushac => "pushac"
  | setowner => "setowner"
  | isstaticok => "isstaticok"
  | setstatic => "setstatic"
  | savearef => "savearef"
  | restorearef => "restorearef"
  | chknullish => "chknullish"
  | pushref => "pushref"

def ofNumber? (number : UInt16) : Option Signal := all.find? fun signal => signal.number == number

def ofMnemonic? (text : String) : Option Signal := all.find? fun signal => signal.mnemonic == text

end Signal

end Structuring.Bytecode
