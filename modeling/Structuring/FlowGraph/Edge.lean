import Structuring.FlowGraph.Basic

/-! Operations on edges.

Edges keep their order and may occur more than once. Each operation edits both ends.
-/

namespace Structuring.FlowGraph

def addEdge (graph : FlowGraph) (source target : NodeId) : FlowGraph :=
  (graph.mapSuccessors source (· ++ [target])).mapPredecessors target (· ++ [source])

def hasEdge (graph : FlowGraph) (source target : NodeId) : Bool :=
  (graph.node source).successors.contains target

def removeEdge (graph : FlowGraph) (source target : NodeId) : FlowGraph :=
  if graph.hasEdge source target then
    (graph.mapSuccessors source (·.erase target)).mapPredecessors target (·.erase source)
  else graph

def removeAllEdges (graph : FlowGraph) (source target : NodeId) : FlowGraph :=
  Nat.repeat (·.removeEdge source target) ((graph.node source).successors.count target) graph

def clearSuccessors (graph : FlowGraph) (id : NodeId) : FlowGraph :=
  (graph.node id).successors.foldl (fun graph target => graph.mapPredecessors target (·.erase id))
    (graph.mapSuccessors id fun _ => [])

/-- Lead the edges into `old` to `new`. They keep their places at their sources and come
last at `new`. -/
def movePredecessors (graph : FlowGraph) (old new : NodeId) : FlowGraph :=
  (graph.node old).predecessors.foldl
    (fun graph source =>
      (graph.mapSuccessors source (·.replace old new)).mapPredecessors new (· ++ [source]))
    (graph.mapPredecessors old fun _ => [])

/-- Put `new` in the place of `old`: the edges into it and its slot in the parent. -/
def substitute (graph : FlowGraph) (old new : NodeId) : FlowGraph :=
  let moved := graph.movePredecessors old new
  match (moved.node old).parent with
  | some parent => moved.mapKind parent (·.replaceChild old new)
  | none => moved

/-- Remove the edges into `target` from the nodes of a level that start in `[start, stop)`. -/
def cutEdgesInto (graph : FlowGraph) (level : Option NodeId) (start stop : Nat) (target : NodeId) :
    FlowGraph :=
  let sources := (graph.node target).predecessors.filter fun source =>
    (graph.node source).parent = level && (graph.node source).startsWithin start stop
  sources.foldl (fun graph source => graph.removeAllEdges source target) graph

end Structuring.FlowGraph
