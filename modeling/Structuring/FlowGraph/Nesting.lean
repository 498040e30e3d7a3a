import Structuring.FlowGraph.Basic
import Structuring.Sorting

/-! Structures around nodes.

A level is the set of nodes with one parent; without a parent they are on the outermost
level.
-/

namespace Structuring.FlowGraph

/-- Go from a node to its parents, at most `fuel` nodes long, until one has the given
parent. -/
def climbWithin (graph : FlowGraph) (level : Option NodeId) : Nat → NodeId → Option NodeId
  | 0, _ => none
  | fuel + 1, id =>
    if (graph.node id).parent = level then some id
    else
      match (graph.node id).parent with
      | some parent => graph.climbWithin level fuel parent
      | none => none

/-- The node on `level` that is `id` or has it inside. Nesting is no deeper than the number
of nodes. -/
def climb (graph : FlowGraph) (id : NodeId) (level : Option NodeId) : Option NodeId :=
  graph.climbWithin level graph.size id

/-- Make the nodes of `level` that start in `[start, stop)` children of a structure. -/
def absorb (graph : FlowGraph) (parent : NodeId) (level : Option NodeId) (start stop : Nat) :
    FlowGraph :=
  { nodes := graph.nodes.mapIdx fun id node =>
      if id ≠ parent ∧ node.parent = level ∧ node.startsWithin start stop then
        { node with parent := some parent }
      else node }

def children (graph : FlowGraph) (parent : NodeId) : List NodeId :=
  stableSort (fun first second => (graph.node first).start ≤ (graph.node second).start)
    (graph.ids.filter fun id => (graph.node id).parent = some parent)

def leaksFrom (graph : FlowGraph) (parent : NodeId) (id : NodeId) : Bool :=
  let outside (other : NodeId) : Bool := (graph.node other).parent ≠ some parent
  (graph.node id).successors.any outside || (graph.node id).predecessors.any outside

def leak? (graph : FlowGraph) (parent : NodeId) : Option NodeId :=
  (graph.children parent).find? (graph.leaksFrom parent)

/-- Whether a node is a worse choice than a later one for what flows into an address: a
node with edges is better than one without, then a later start. -/
def yieldsTo (graph : FlowGraph) (earlier later : NodeId) : Bool :=
  let first := graph.node earlier
  let second := graph.node later
  if first.isDetached = second.isDetached then first.start ≤ second.start else first.isDetached

/-- The node of a level that stops at an address after starting before it. -/
def lastNodeBefore? (graph : FlowGraph) (level : Option NodeId) (address : Nat) : Option NodeId :=
  let candidates := graph.ids.filter fun id =>
    (graph.node id).parent = level && (graph.node id).stop == address
      && (graph.node id).start < address
  candidates.foldl
    (fun best id =>
      match best with
      | none => some id
      | some other => if graph.yieldsTo other id then some id else some other)
    none

def blockAt? (graph : FlowGraph) (blocks : List NodeId) (address : Nat) : Option NodeId :=
  blocks.find? fun block => (graph.node block).start == address

end Structuring.FlowGraph
