/-! Types, comparisons and scopes that instruction words name. -/

namespace Structuring.Bytecode

inductive DataType where
  | double
  | single
  | int32
  | int64
  | bool
  | variant
  | string
  | int16
  deriving DecidableEq, Repr

namespace DataType

def all : List DataType := [double, single, int32, int64, bool, variant, string, int16]

def number : DataType → Nat
  | double => 0x0
  | single => 0x1
  | int32 => 0x2
  | int64 => 0x3
  | bool => 0x4
  | variant => 0x5
  | string => 0x6
  | int16 => 0xF

def suffix : DataType → Char
  | double => 'd'
  | single => 'f'
  | int32 => 'i'
  | int64 => 'l'
  | bool => 'b'
  | variant => 'v'
  | string => 's'
  | int16 => 'e'

def ofSuffix? (c : Char) : Option DataType := all.find? fun type => type.suffix == c

end DataType

inductive Comparison where
  | less
  | lessEqual
  | equal
  | notEqual
  | greaterEqual
  | greater
  deriving DecidableEq, Repr

namespace Comparison

def all : List Comparison := [less, lessEqual, equal, notEqual, greaterEqual, greater]

def number : Comparison → Nat
  | less => 1
  | lessEqual => 2
  | equal => 3
  | notEqual => 4
  | greaterEqual => 5
  | greater => 6

def mnemonic : Comparison → String
  | less => "LT"
  | lessEqual => "LTE"
  | equal => "EQ"
  | notEqual => "NEQ"
  | greaterEqual => "GTE"
  | greater => "GT"

def ofMnemonic? (text : String) : Option Comparison := all.find? fun kind => kind.mnemonic == text

end Comparison

inductive Scope where
  | own
  | other
  | all
  | noone
  | globals
  | builtins
  | locals
  | stacktop
  | statics
  | arguments
  deriving DecidableEq, Repr

namespace Scope

def named : List Scope :=
  [own, other, all, noone, globals, builtins, locals, stacktop, statics, arguments]

def number : Scope → Int16
  | own => -1
  | other => -2
  | all => -3
  | noone => -4
  | globals => -5
  | builtins => -6
  | locals => -7
  | stacktop => -9
  | statics => -15
  | arguments => -16

def name : Scope → String
  | own => "self"
  | other => "other"
  | all => "all"
  | noone => "noone"
  | globals => "global"
  | builtins => "builtin"
  | locals => "local"
  | stacktop => "stacktop"
  | statics => "static"
  | arguments => "arg"

def ofNumber? (number : Int16) : Option Scope := named.find? fun scope => scope.number == number

def ofName? (text : String) : Option Scope := named.find? fun scope => scope.name == text

end Scope

end Structuring.Bytecode
