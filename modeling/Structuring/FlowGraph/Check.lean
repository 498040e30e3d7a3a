import Structuring.FlowGraph.Basic

/-! Checks of whole graphs: every edge is recorded on both ends the same number of times,
and no block holds a branch any more. -/

namespace Structuring.FlowGraph

open Bytecode

def idText (id : NodeId) : String := "node" ++ Number.decimal id

/-- A pair of nodes whose records of the edges between them differ. -/
structure EdgeMismatch where
  source : NodeId
  target : NodeId
  forward : Nat
  backward : Nat
  deriving DecidableEq, Repr

def EdgeMismatch.text (mismatch : EdgeMismatch) : String :=
  idText mismatch.source ++ " -> " ++ idText mismatch.target ++ " recorded "
    ++ Number.decimal mismatch.forward ++ " time(s) as successor but "
    ++ Number.decimal mismatch.backward ++ " time(s) as predecessor"

def mismatchAt? (graph : FlowGraph) (source target : NodeId) : Option EdgeMismatch :=
  let forward := (graph.node source).successors.count target
  let backward := (graph.node target).predecessors.count source
  if forward = backward then none else some { source, target, forward, backward }

def mismatchOf? (graph : FlowGraph) (id : NodeId) : Option EdgeMismatch :=
  ((graph.node id).successors.findSome? fun target => graph.mismatchAt? id target).or
    ((graph.node id).predecessors.findSome? fun source => graph.mismatchAt? source id)

def edgeMismatch? (graph : FlowGraph) : Option EdgeMismatch := graph.ids.findSome? graph.mismatchOf?

structure RemainingJump where
  block : NodeId
  instruction : Instruction
  deriving DecidableEq, Repr

def RemainingJump.text (jump : RemainingJump) : String :=
  idText jump.block ++ " still contains `" ++ jump.instruction.opcode.mnemonic ++ "` at "
    ++ Number.hex jump.instruction.address

def remainingJumpOf? (graph : FlowGraph) (id : NodeId) : Option RemainingJump :=
  ((graph.node id).instructions.find? (·.isBranch)).map fun instruction => ⟨id, instruction⟩

def remainingJump? (graph : FlowGraph) : Option RemainingJump :=
  graph.ids.findSome? graph.remainingJumpOf?

end Structuring.FlowGraph
