import Structuring.Bytecode.AddressRange
import Structuring.FlowGraph.Kind

/-! Control-flow graphs.

Nodes refer to each other by number and are never removed. An edge is recorded on both of
its ends. Every node may have a parent, the innermost structure around it.
-/

namespace Structuring

open Bytecode

namespace FlowGraph

structure Node where
  start : Nat
  stop : Nat
  predecessors : List NodeId := []
  successors : List NodeId := []
  parent : Option NodeId
  kind : Kind
  deriving DecidableEq, Repr

namespace Node

def range (node : Node) : AddressRange := ⟨node.start, node.stop⟩

def block? (node : Node) : Option Block :=
  match node.kind with
  | .block block => some block
  | _ => none

def instructions (node : Node) : List Instruction :=
  match node.kind with
  | .block block => block.instructions
  | _ => []

def last? (node : Node) : Option Instruction := node.instructions.getLast?

def lastOpcode? (node : Node) : Option Opcode := node.last?.map (·.opcode)

def target? (node : Node) : Option Nat := node.last?.bind (·.branchTarget?)

def targetOf? (node : Node) (opcode : Opcode) : Option Nat := node.last?.bind (·.targetOf? opcode)

def jumpTarget? (node : Node) : Option Nat := node.targetOf? .b

def isDetached (node : Node) : Bool := node.predecessors.isEmpty && node.successors.isEmpty

/-- Whether the node starts in `[start, stop)`. -/
def startsWithin (node : Node) (start stop : Nat) : Bool := start ≤ node.start && node.start < stop

def mapSuccessors (node : Node) (f : List NodeId → List NodeId) : Node :=
  { node with successors := f node.successors }

def mapPredecessors (node : Node) (f : List NodeId → List NodeId) : Node :=
  { node with predecessors := f node.predecessors }

def mapInstructions (node : Node) (f : List Instruction → List Instruction) : Node :=
  match node.kind with
  | .block block => { node with kind := .block { block with instructions := f block.instructions } }
  | _ => node

/-- What a number outside the graph stands for. -/
def absent : Node := { start := 0, stop := 0, parent := none, kind := .sentinel .empty }

end Node

end FlowGraph

structure FlowGraph where
  nodes : Array FlowGraph.Node := #[]
  deriving DecidableEq, Repr

namespace FlowGraph

def size (graph : FlowGraph) : Nat := graph.nodes.size

def ids (graph : FlowGraph) : List NodeId := List.range graph.size

def node (graph : FlowGraph) (id : NodeId) : Node := graph.nodes.getD id Node.absent

/-- The graph with a new node at the end, without edges. Its number is the old size. -/
def addNode (graph : FlowGraph) (kind : Kind) (start stop : Nat) (parent : Option NodeId) :
    FlowGraph :=
  { nodes := graph.nodes.push { start, stop, parent, kind } }

def modify (graph : FlowGraph) (id : NodeId) (f : Node → Node) : FlowGraph :=
  { nodes := graph.nodes.modify id f }

def mapSuccessors (graph : FlowGraph) (id : NodeId) (f : List NodeId → List NodeId) : FlowGraph :=
  graph.modify id (·.mapSuccessors f)

def mapPredecessors (graph : FlowGraph) (id : NodeId) (f : List NodeId → List NodeId) : FlowGraph :=
  graph.modify id (·.mapPredecessors f)

def mapInstructions (graph : FlowGraph) (id : NodeId) (f : List Instruction → List Instruction) :
    FlowGraph :=
  graph.modify id (·.mapInstructions f)

def setParent (graph : FlowGraph) (id : NodeId) (parent : Option NodeId) : FlowGraph :=
  graph.modify id ({ · with parent })

def mapKind (graph : FlowGraph) (id : NodeId) (f : Kind → Kind) : FlowGraph :=
  graph.modify id fun node => { node with kind := f node.kind }

def popInstruction (graph : FlowGraph) (id : NodeId) : FlowGraph :=
  graph.mapInstructions id (·.dropLast)

def popIf (graph : FlowGraph) (id : NodeId) (opcode : Opcode) : FlowGraph :=
  if (graph.node id).lastOpcode? = some opcode then graph.popInstruction id else graph

def dropInstructions (graph : FlowGraph) (id : NodeId) (count : Nat) : FlowGraph :=
  graph.mapInstructions id fun instructions => instructions.take (instructions.length - count)

def shiftInstruction (graph : FlowGraph) (id : NodeId) : FlowGraph :=
  graph.mapInstructions id (·.drop 1)

end FlowGraph

end Structuring
