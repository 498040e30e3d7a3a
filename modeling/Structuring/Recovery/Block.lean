import Structuring.Recovery.Session

/-! Basic blocks.

The stream of instructions is cut at the start of the entry, at every branch target, after
every branch and return, and where a nested function starts. An empty block at the end of
the entry is there for the branches that go to it. A block leads first to the one it falls
into and then to its branch target.
-/

namespace Structuring.Recovery

open Bytecode FlowGraph

def insertCut (address : Nat) : List Nat → List Nat
  | [] => [address]
  | first :: rest =>
    if address < first then address :: first :: rest
    else if address = first then first :: rest
    else first :: insertCut address rest

/-- The addresses at which an instruction ends or starts a block. -/
def instructionCuts (inst : Instruction) : List Nat :=
  match inst.branchTarget? with
  | some target => [target, inst.nextAddress]
  | none => if inst.isReturn then [inst.nextAddress] else []

/-- The starts of blocks, in increasing order. -/
def cutPoints (code : Code) : List Nat :=
  let starts := (code.children.map (·.start)).filter (· ≠ 0)
  (0 :: code.length :: code.instructions.flatMap instructionCuts ++ starts).foldr insertCut []

def targetFailure? (code : Code) (inst : Instruction) : Option Failure :=
  inst.branchTarget?.bind fun target =>
    if code.isBoundary target then none
    else
      some (.malformed ⟨inst.address, inst.nextAddress⟩
        (.branchTarget inst.opcode target code.length))

def childFailure? (code : Code) (child : ChildEntry) : Option Failure :=
  if child.start = 0 ∨ code.isBoundary child.start then none
  else some (.malformed (.point child.start) (.childStart child.name))

def cutFailure? (code : Code) : Option Failure :=
  (code.instructions.findSome? (targetFailure? code)).or
    (code.children.findSome? (childFailure? code))

/-- The instructions between each cut and the next. The last cut has none. -/
def sliceAt : List Nat → List Instruction → List (AddressRange × List Instruction)
  | [], _ => []
  | [last], insts => [(⟨last, last⟩, insts.takeWhile (·.address < last))]
  | start :: stop :: rest, insts =>
    (⟨start, stop⟩, insts.takeWhile (·.address < stop))
      :: sliceAt (stop :: rest) (insts.dropWhile (·.address < stop))

def addBlocks (index : Nat) : List (AddressRange × List Instruction) → Recover Unit
  | [] => pure ()
  | (range, instructions) :: rest => do
    let id ← addNode (.block { index, instructions }) range.start range.stop none
    modifyContext fun context => { context with blocks := context.blocks ++ [id] }
    addBlocks (index + 1) rest

/-- Whether control may go on to the next block. -/
def fallsThrough (node : Node) : Bool :=
  match node.last? with
  | some inst => !(inst.isJump || inst.isReturn)
  | none => true

def linkBlock (blocks : List NodeId) (id : NodeId) (next : Option NodeId) : Recover Unit := do
  let node := (← getGraph).node id
  match next with
  | some next => if fallsThrough node then modifyGraph (·.addEdge id next)
  | none => pure ()
  match node.target? with
  | none => pure ()
  | some target =>
    match (← getGraph).blockAt? blocks target with
    | some destination => modifyGraph (·.addEdge id destination)
    | none => throw (.malformed node.range (.missingBlock target))

def linkBlocks (blocks : List NodeId) : List NodeId → Recover Unit
  | [] => pure ()
  | id :: rest => do
    linkBlock blocks id rest.head?
    linkBlocks blocks rest

def buildBlocks (source : Source) : Recover Bool := do
  if !(← getContext).blocks.isEmpty then return false
  match cutFailure? source.code with
  | some failure => throw failure
  | none => pure ()
  addBlocks 0 (sliceAt (cutPoints source.code) source.code.instructions)
  let blocks := (← getContext).blocks
  linkBlocks blocks blocks
  tell (.blocks source.code.name blocks.length)
  return true

end Structuring.Recovery
