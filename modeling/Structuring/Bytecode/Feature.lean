/-! Compiler idioms, which depend on the version of the format. -/

namespace Structuring.Bytecode

/-- A set of idioms, one bit each. -/
structure Features where
  bits : UInt32
  deriving DecidableEq, Repr

namespace Features

/-- Counters of repeat loops are converted to booleans before they are tested. -/
def typedBooleans : Features := ⟨1⟩

/-- Boolean operators are branches that join at a pushed constant. -/
def shortCircuit : Features := ⟨2⟩

/-- A with loop is left through a block that drops the environment. -/
def withBreakBlocks : Features := ⟨4⟩

/-- Function bodies stand inside the code that defines them. -/
def nestedFunctions : Features := ⟨8⟩

/-- Functions guard the initializers of their static variables. -/
def staticInit : Features := ⟨16⟩

def none : Features := ⟨0⟩

def union (first second : Features) : Features := ⟨first.bits ||| second.bits⟩

def has (features part : Features) : Bool := features.bits &&& part.bits == part.bits

def all : Features := ⟨31⟩

def ofBits (bits : UInt32) : Features := ⟨bits &&& all.bits⟩

/-- The idioms that a version of the format uses. -/
def ofVersion (version : UInt8) : Features :=
  let typed := typedBooleans.union (shortCircuit.union withBreakBlocks)
  let nested := nestedFunctions.union staticInit
  if 17 ≤ version then typed.union nested
  else if 15 ≤ version then typed
  else none

end Features

def latestVersion : UInt8 := 17

end Structuring.Bytecode
