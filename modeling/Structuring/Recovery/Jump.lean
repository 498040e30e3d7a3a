import Structuring.FlowGraph.Edge

/-! Branches taken out of the graph. -/

namespace Structuring.FlowGraph

open Bytecode

/-- Drop the operation at the end of a block, if it is the given one, and the edges that
leave the block. -/
def dropBranch (graph : FlowGraph) (id : NodeId) (opcode : Opcode) : FlowGraph :=
  (graph.popIf id opcode).clearSuccessors id

def dropSecondEdge (graph : FlowGraph) (id : NodeId) : FlowGraph :=
  match (graph.node id).successors[1]? with
  | some target => graph.removeEdge id target
  | none => graph

/-- Put a sentinel in the place of the jump that ends a block, and return the node that now
ends the path. A block left without instructions is replaced by the sentinel. An empty
sentinel adds nothing to a block that keeps some. -/
def replaceJump (graph : FlowGraph) (block : NodeId) (sentinel : Sentinel) : FlowGraph × NodeId :=
  match (graph.node block).last? with
  | none => (graph, block)
  | some jump =>
    let cut := (graph.popInstruction block).clearSuccessors block
    let emptied := (cut.node block).instructions.isEmpty
    if sentinel = .empty ∧ emptied = false then (cut, block)
    else
      let id := cut.size
      let marked :=
        cut.addNode (.sentinel sentinel) jump.address jump.nextAddress (cut.node block).parent
      (if emptied then marked.substitute block id else marked.addEdge block id, id)

end Structuring.FlowGraph
