/-! Names that instruction operands refer to by number. -/

namespace Structuring.Bytecode

abbrev NameTable := List String

/-- The number of `name`, and the table with the name entered at its end if it is new. -/
def NameTable.intern (table : NameTable) (name : String) : Nat × NameTable :=
  match table.findIdx? (· == name) with
  | some id => (id, table)
  | none => (table.length, table ++ [name])

structure Symbols where
  variableNames : NameTable := []
  functionNames : NameTable := []
  stringValues : NameTable := []
  deriving DecidableEq, Repr

namespace Symbols

def internVariable (symbols : Symbols) (name : String) : Nat × Symbols :=
  let entered := symbols.variableNames.intern name
  (entered.1, { symbols with variableNames := entered.2 })

def internFunction (symbols : Symbols) (name : String) : Nat × Symbols :=
  let entered := symbols.functionNames.intern name
  (entered.1, { symbols with functionNames := entered.2 })

def internString (symbols : Symbols) (value : String) : Nat × Symbols :=
  let entered := symbols.stringValues.intern value
  (entered.1, { symbols with stringValues := entered.2 })

end Symbols

end Structuring.Bytecode
