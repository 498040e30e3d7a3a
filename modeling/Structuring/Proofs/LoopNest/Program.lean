import Mathlib.Algebra.Ring.Nat
import Structuring.Proofs.Rerun

/-! Programs of nested loops, and the code that stands for them.

```text
while     head: condition; bf after; body; b head
do-until  head: body; condition; bf head
repeat    count; dup; 0; cmp LTE; bt after; head: body; 1; sub; dup; [conv]; bt head; after: popz
with      pushenv tail; head: body; tail: popenv head
```

Code is written down as pieces, which say what each instruction is for; an address matters only
once the instructions of all pieces are placed one after another.
-/

namespace Structuring.LoopNest

open Bytecode Recovery

/-! Syntax -/

/-- An instruction that is neither a branch nor a return. -/
def IsStraight (inst : Instruction) : Prop :=
  inst.isBranch = false ∧ inst.opcode.takesLabel = false ∧ inst.isReturn = false

/-- Instructions that run from the first to the last. -/
structure Run where
  steps : List Instruction
  nonempty : steps ≠ []
  straight : ∀ inst ∈ steps, IsStraight inst

def pushRun (value : Int16) : Run where
  steps := [⟨0, .pushi, .int16, .int16, .int16 value⟩]
  nonempty := by simp
  straight := by simp [IsStraight, Instruction.isBranch, Instruction.branchTarget?, Opcode.takesLabel,
    Instruction.isReturn]

/-- The instructions that handle the counter of a repeat loop. Their types are free. -/
structure Counter where
  copy : Instruction
  zero : Instruction
  compare : Instruction
  one : Instruction
  subtract : Instruction
  copyBack : Instruction
  convert : Instruction
  discard : Instruction
  copies : copy.opcode = .dup
  isZero : zero.constant? = some 0
  compares : compare.compares .lessEqual = true
  isOne : one.constant? = some 1
  subtracts : subtract.opcode = .sub
  copiesBack : copyBack.opcode = .dup
  converts : convert.opcode = .conv
  discards : discard.opcode = .popz

inductive LoopKind where
  | whileLoop (condition : Run)
  | doUntil (condition : Run)
  | repeatLoop (count : Run) (counter : Counter)
  | withLoop

/-- Runs and loops one after another. -/
inductive Program where
  | done
  | run (steps : Run) (rest : Program)
  | loop (kind : LoopKind) (body rest : Program)

/-! Placed instructions -/

/-- The room that instructions take. -/
def extent (instructions : List Instruction) : Nat := (instructions.map (·.size)).sum

def placeFrom (address : Nat) : List Instruction → List Instruction
  | [] => []
  | inst :: rest => { inst with address } :: placeFrom (address + inst.size) rest

def branch (opcode : Opcode) (target : Nat) : Instruction :=
  ⟨0, opcode, .int32, .int32, .branch target⟩

def exit : Instruction := ⟨0, .exit, .int32, .int32, .none⟩

/-- A loop from its head to behind the branch back. -/
structure PlacedLoop where
  shape : CandidateShape
  start : Nat
  stop : Nat
  deriving DecidableEq, Repr

def PlacedLoop.turn (loop : PlacedLoop) : Nat := loop.stop - 4

/-! Code in pieces -/

/-- What a branch does for its loop: it is before the head, leaves at the head, or goes back. -/
inductive Role where
  | prelude
  | condition
  | tail
  deriving DecidableEq, Repr

inductive Piece where
  /-- A place for branches to go to. -/
  | label
  | steps (instructions : List Instruction)
  /-- Instructions that end in a branch of a loop, and what follows the branch. -/
  | scaffold (loop : PlacedLoop) (role : Role) (ending : List Instruction)
      (discard : Option Instruction)

def Piece.instructions : Piece → List Instruction
  | label => []
  | steps instructions => instructions
  | scaffold _ _ ending discard => ending ++ discard.toList

def instructionsOf (pieces : List Piece) : List Instruction := pieces.flatMap (·.instructions)

namespace Counter

def test (counter : Counter) (after : Nat) : List Instruction :=
  [counter.copy, counter.zero, counter.compare, branch .bt after]

def countDown (counter : Counter) (typed : Bool) (head : Nat) : List Instruction :=
  [counter.one, counter.subtract, counter.copyBack] ++
    (if typed then [counter.convert] else []) ++ [branch .bt head]

end Counter

namespace LoopKind

def shape : LoopKind → CandidateShape
  | whileLoop _ => .whileLoop
  | doUntil _ => .doUntil
  | repeatLoop _ _ => .repeatLoop
  | withLoop => .withLoop

def gate (loop : PlacedLoop) : LoopKind → List Piece
  | repeatLoop count counter =>
    [.steps count.steps, .scaffold loop .prelude (counter.test loop.stop) none]
  | withLoop => [.scaffold loop .prelude [branch .pushenv loop.turn] none]
  | whileLoop _ | doUntil _ => [.label]

def entry (loop : PlacedLoop) : LoopKind → List Piece
  | whileLoop condition =>
    [.steps condition.steps, .scaffold loop .condition [branch .bf loop.stop] none]
  | doUntil _ | repeatLoop _ _ | withLoop => []

def check : LoopKind → List Piece
  | doUntil condition => [.steps condition.steps]
  | withLoop => [.label]
  | whileLoop _ | repeatLoop _ _ => []

def turning (typed : Bool) (head : Nat) : LoopKind → List Instruction
  | whileLoop _ => [branch .b head]
  | doUntil _ => [branch .bf head]
  | repeatLoop _ counter => counter.countDown typed head
  | withLoop => [branch .popenv head]

def leaving : LoopKind → Option Instruction
  | repeatLoop _ counter => some counter.discard
  | whileLoop _ | doUntil _ | withLoop => none

def closing (typed : Bool) (loop : PlacedLoop) (kind : LoopKind) : List Piece :=
  kind.check ++ [.scaffold loop .tail (kind.turning typed loop.start) kind.leaving]

-- What has to be known of a loop to write its pieces down does not change the room they take.

def gateSize (kind : LoopKind) : Nat := extent (instructionsOf (kind.gate ⟨kind.shape, 0, 0⟩))

def entrySize (kind : LoopKind) : Nat := extent (instructionsOf (kind.entry ⟨kind.shape, 0, 0⟩))

def checkSize (kind : LoopKind) : Nat := extent (instructionsOf kind.check)

def turnSize (typed : Bool) (kind : LoopKind) : Nat := extent (kind.turning typed 0)

def leaveSize (kind : LoopKind) : Nat := extent kind.leaving.toList

def place (typed : Bool) (address bodySize : Nat) (kind : LoopKind) : PlacedLoop where
  shape := kind.shape
  start := address + kind.gateSize
  stop := address + kind.gateSize + kind.entrySize + bodySize + kind.checkSize + kind.turnSize typed

end LoopKind

namespace Program

variable (typed : Bool)

def size : Program → Nat
  | done => 0
  | run steps rest => extent steps.steps + rest.size
  | loop kind body rest =>
    kind.gateSize + kind.entrySize + body.size + kind.checkSize + kind.turnSize typed +
      kind.leaveSize + rest.size

/-- The pieces of a program from an address on. -/
def pieces (address : Nat) : Program → List Piece
  | done => []
  | run steps rest => .steps steps.steps :: rest.pieces (address + extent steps.steps)
  | loop kind body rest =>
    let placed := kind.place typed address (body.size typed)
    kind.gate placed ++ kind.entry placed ++ body.pieces (placed.start + kind.entrySize) ++
      kind.closing typed placed ++ rest.pieces (placed.stop + kind.leaveSize)

def nest (address : Nat) (around : Option PlacedLoop) : Program → List (PlacedLoop × Option PlacedLoop)
  | done => []
  | run steps rest => rest.nest (address + extent steps.steps) around
  | loop kind body rest =>
    let placed := kind.place typed address (body.size typed)
    (placed, around) :: body.nest (placed.start + kind.entrySize) (some placed) ++
      rest.nest (placed.stop + kind.leaveSize) around

/-- All loops of a program. -/
def loops (address : Nat) : Program → List PlacedLoop
  | done => []
  | run steps rest => rest.loops (address + extent steps.steps)
  | loop kind body rest =>
    let placed := kind.place typed address (body.size typed)
    placed :: body.loops (placed.start + kind.entrySize) ++ rest.loops (placed.stop + kind.leaveSize)

def code (name : String) (symbols : Symbols) (program : Program) : Code where
  name
  instructions := placeFrom 0 (instructionsOf (program.pieces typed 0) ++ [exit])
  length := program.size typed + exit.size
  children := []
  symbols

end Program

end Structuring.LoopNest
