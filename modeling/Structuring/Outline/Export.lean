import Structuring.Bytecode.Printer
import Structuring.Recovery.Session
import Structuring.Outline.Tree

/-! Trees from graphs.

The parts of a structure are found by following first successors from the nodes in its slots,
as long as they stay directly inside it.
-/

namespace Structuring.Outline

open Bytecode Recovery FlowGraph

/-- Follow first successors from a node while they are children of `parent`, up to `stop` and
without a repetition; `fuel` bounds the number of nodes. -/
def chainFrom (graph : FlowGraph) (parent : NodeId) (stop : Option NodeId) :
    Nat → List NodeId → Option NodeId → List NodeId
  | fuel + 1, seen, some id =>
    if some id = stop ∨ (graph.node id).parent ≠ some parent ∨ id ∈ seen then []
    else id :: chainFrom graph parent stop fuel (id :: seen) (graph.node id).successors.head?
  | _, _, _ => []

/-- The nodes in order from `start` inside `parent`. No node comes twice, so there are at most
as many as the graph has. -/
def chainIds (graph : FlowGraph) (parent : NodeId) (start stop : Option NodeId) : List NodeId :=
  chainFrom graph parent stop graph.size [] start

/-- The parts of a loop. The tail has a part of its own unless the others show it. -/
def loopSlots (graph : FlowGraph) (id : NodeId) (loop : Loop) : List (String × List NodeId) :=
  let head :=
    if loop.body = some loop.head then [] else chainIds graph id (some loop.head) loop.body
  let bodyStop := if loop.body = some loop.tail then none else some loop.tail
  let body := chainIds graph id loop.body bodyStop
  let tail := if loop.tail ∈ head ∨ loop.tail ∈ body then [] else [loop.tail]
  [("head", head), ("body", body), ("tail", tail)]

def allSlots (graph : FlowGraph) (id : NodeId) : List (String × List NodeId) :=
  let part (start : Option NodeId) : List NodeId := chainIds graph id start none
  match (graph.node id).kind with
  | .fragment parts => [("body", part parts.entry)]
  | .loop loop => loopSlots graph id loop
  | .chain parts => parts.operands.map fun operand => ("operand", part (some operand))
  | .conditional parts =>
    [("condition", [parts.condition]), ("then", part (some parts.whenTrue)),
     ("else", (parts.otherwise.map fun id => part (some id)).getD [])]
  | .switch parts =>
    [("cases", part (some parts.cases)), ("body", part parts.body),
     ("end_cases", part parts.endCases)]
  | .staticInit head => [("body", part (some head))]
  | .block _ | .caseJump | .caseLabel _ | .sentinel _ => []

def slotIds (graph : FlowGraph) (id : NodeId) : List (String × List NodeId) :=
  (allSlots graph id).filter fun slot => !slot.2.isEmpty

def attributesOf (graph : FlowGraph) (loop : Loop) : List (String × String) :=
  let address (id : NodeId) : String := Number.hex (graph.node id).start
  match loop.shape with
  | .whileLoop mustBeWhile incrementor =>
    (incrementor.map fun id => ("for_loop_incrementor", address id)).toList
      ++ [("must_be_while_loop", if mustBeWhile then "true" else "false")]
  | .withLoop breakBlock => (breakBlock.map fun id => ("break_block", address id)).toList
  | .doUntil | .repeatLoop => []

def labelOf (symbols : Symbols) (graph : FlowGraph) (id : NodeId) : NodeLabel :=
  let node := graph.node id
  let label : NodeLabel := { id, kind := node.kind.name, range := node.range }
  match node.kind with
  | .block block => { label with instructions := block.instructions.map (·.text (some symbols)) }
  | .fragment parts => { label with name := some parts.name }
  | .loop loop => { label with attributes := attributesOf graph loop }
  | _ => label

def exportNode? (symbols : Symbols) (graph : FlowGraph) : Nat → NodeId → Option Tree
  | 0, _ => none
  | fuel + 1, id => do
    let slots ← (slotIds graph id).mapM fun slot => do
      let nodes ← slot.2.mapM (exportNode? symbols graph fuel)
      return (slot.1, nodes)
    return .node (labelOf symbols graph id) slots

/-- The tree of the whole entry. There is none before its fragments are known. A node is never
inside itself, so no tree is higher than the graph is large. -/
def export? (symbols : Symbols) (context : Context) : Option Tree :=
  context.root.bind (exportNode? symbols context.graph context.graph.size)

end Structuring.Outline
