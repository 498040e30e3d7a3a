import Structuring.FlowGraph.Edge
import Structuring.FlowGraph.Nesting

/-! Nodes after an operation on a graph.

An operation edits either edges or what nodes hold besides. Most facts about one part therefore
carry over from the graph before without a look at what the operation did to the other.
-/

namespace Structuring.FlowGraph

open Bytecode

variable {graph next final : FlowGraph} {id other : NodeId}

def Node.core (node : Node) : Node := { node with predecessors := [], successors := [] }

structure SameCores (graph next : FlowGraph) : Prop where
  size : next.size = graph.size
  core : ∀ id, (next.node id).core = (graph.node id).core

structure SameEdges (graph next : FlowGraph) : Prop where
  successors : ∀ id, (next.node id).successors = (graph.node id).successors
  predecessors : ∀ id, (next.node id).predecessors = (graph.node id).predecessors

namespace SameCores

theorem refl (graph : FlowGraph) : SameCores graph graph := ⟨rfl, fun _ => rfl⟩

theorem trans (first : SameCores graph next) (second : SameCores next final) : SameCores graph final :=
  ⟨second.size.trans first.size, fun id => (second.core id).trans (first.core id)⟩

theorem start (same : SameCores graph next) (id : NodeId) : (next.node id).start = (graph.node id).start := by
  simpa only [Node.core] using congrArg Node.start (same.core id)

theorem stop (same : SameCores graph next) (id : NodeId) : (next.node id).stop = (graph.node id).stop := by
  simpa only [Node.core] using congrArg Node.stop (same.core id)

theorem parent (same : SameCores graph next) (id : NodeId) :
    (next.node id).parent = (graph.node id).parent := by
  simpa only [Node.core] using congrArg Node.parent (same.core id)

theorem kind (same : SameCores graph next) (id : NodeId) : (next.node id).kind = (graph.node id).kind := by
  simpa only [Node.core] using congrArg Node.kind (same.core id)

theorem instructions (same : SameCores graph next) (id : NodeId) :
    (next.node id).instructions = (graph.node id).instructions := by
  simp only [Node.instructions, same.kind id]

/-- A fold of operations that each edit edges only does so as a whole. -/
theorem foldl {α : Type} (step : FlowGraph → α → FlowGraph)
    (each : ∀ graph item, SameCores graph (step graph item)) (items : List α) (graph : FlowGraph) :
    SameCores graph (items.foldl step graph) := by
  induction items generalizing graph with
  | nil => exact refl graph
  | cons item rest ih => exact (each graph item).trans (ih _)

end SameCores

/-! Single nodes -/

theorem node_of_size_le (outside : graph.size ≤ id) : graph.node id = Node.absent := by
  simp only [node, Array.getD_eq_getD_getElem?]
  rw [Array.getElem?_eq_none outside]
  rfl

theorem lt_size_of_parent {parent : NodeId} (inside : (graph.node id).parent = some parent) : id < graph.size := by
  refine Nat.lt_of_not_le fun outside => ?_
  rw [node_of_size_le outside] at inside
  exact absurd inside (by simp [Node.absent])

theorem node_addNode (kind : Kind) (start stop : Nat) (parent : Option NodeId) :
    (graph.addNode kind start stop parent).node id =
      if id = graph.size then { start, stop, parent, kind } else graph.node id := by
  simp only [node, addNode, size, Array.getD_eq_getD_getElem?, Array.getElem?_push]
  split <;> simp

theorem node_modify (f : Node → Node) :
    (graph.modify id f).node other =
      if id = other ∧ other < graph.size then f (graph.node other) else graph.node other := by
  simp only [node, modify, size, Array.getD_eq_getD_getElem?, Array.getElem?_modify]
  by_cases same : id = other
  · by_cases bound : other < graph.nodes.size
    · simp [same, bound]
    · simp [same, bound]
  · simp [same]

theorem node_absorb (owner : NodeId) (level : Option NodeId) (start stop : Nat) :
    (graph.absorb owner level start stop).node id =
      if id < graph.size ∧ id ≠ owner ∧ (graph.node id).parent = level
          ∧ (graph.node id).startsWithin start stop then
        { graph.node id with parent := some owner }
      else graph.node id := by
  by_cases bound : id < graph.nodes.size
  · simp only [node, absorb, size, Array.getD_eq_getD_getElem?, Array.getElem?_mapIdx,
      Array.getElem?_eq_getElem bound, Option.map_some, Option.getD_some, bound, true_and]
  · have outside : graph.size ≤ id := Nat.le_of_not_lt bound
    rw [if_neg fun holds => bound holds.1, node_of_size_le outside]
    exact node_of_size_le (by simpa [absorb, size] using outside)

/-- What an edit of one node leaves alone in that node stays as it was in every node. -/
theorem field_modify {γ : Type} (field : Node → γ) (f : Node → Node)
    (fixed : ∀ node, field (f node) = field node) (other : NodeId) :
    field ((graph.modify id f).node other) = field (graph.node other) := by
  rw [node_modify]
  split
  · exact fixed _
  · rfl

/-! Sizes -/

@[simp] theorem size_addNode (kind : Kind) (start stop : Nat) (parent : Option NodeId) :
    (graph.addNode kind start stop parent).size = graph.size + 1 := by
  simp [addNode, size]

@[simp] theorem size_modify (f : Node → Node) : (graph.modify id f).size = graph.size := by
  simp [modify, size]

@[simp] theorem size_mapInstructions (f : List Instruction → List Instruction) :
    (graph.mapInstructions id f).size = graph.size := size_modify _

@[simp] theorem size_setParent (parent : Option NodeId) :
    (graph.setParent id parent).size = graph.size := size_modify _

@[simp] theorem size_mapKind (f : Kind → Kind) : (graph.mapKind id f).size = graph.size :=
  size_modify _

@[simp] theorem size_absorb (owner : NodeId) (level : Option NodeId) (start stop : Nat) :
    (graph.absorb owner level start stop).size = graph.size := by
  simp [absorb, size]

/-! Operations on edges leave the rest of every node alone -/

theorem sameCores_mapSuccessors (f : List NodeId → List NodeId) : SameCores graph (graph.mapSuccessors id f) :=
  ⟨size_modify _, field_modify Node.core _ fun _ => rfl⟩

theorem sameCores_mapPredecessors (f : List NodeId → List NodeId) :
    SameCores graph (graph.mapPredecessors id f) :=
  ⟨size_modify _, field_modify Node.core _ fun _ => rfl⟩

theorem sameCores_addEdge (source target : NodeId) : SameCores graph (graph.addEdge source target) :=
  (sameCores_mapSuccessors _).trans (sameCores_mapPredecessors _)

theorem sameCores_removeEdge (graph : FlowGraph) (source target : NodeId) :
    SameCores graph (graph.removeEdge source target) := by
  unfold removeEdge
  split
  · exact (sameCores_mapSuccessors _).trans (sameCores_mapPredecessors _)
  · exact .refl graph

/-- What holds whenever an edge is removed, holds once all of them are. -/
theorem removeAllEdges_induction (holds : FlowGraph → Prop) {source target : NodeId} (first : holds graph)
    (each : ∀ next, holds next → holds (next.removeEdge source target)) :
    holds (graph.removeAllEdges source target) := by
  unfold removeAllEdges
  generalize (graph.node source).successors.count target = count
  induction count with
  | zero => exact first
  | succ count ih => exact each _ ih

theorem sameCores_removeAllEdges (graph : FlowGraph) (source target : NodeId) :
    SameCores graph (graph.removeAllEdges source target) :=
  removeAllEdges_induction (SameCores graph) (.refl graph) fun _ ih => ih.trans (sameCores_removeEdge _ source target)

theorem sameCores_clearSuccessors (graph : FlowGraph) (id : NodeId) :
    SameCores graph (graph.clearSuccessors id) :=
  (sameCores_mapSuccessors _).trans (.foldl _ (fun _ _ => sameCores_mapPredecessors _) _ _)

theorem sameCores_movePredecessors (graph : FlowGraph) (old new : NodeId) :
    SameCores graph (graph.movePredecessors old new) :=
  (sameCores_mapPredecessors _).trans
    (.foldl _ (fun _ _ => (sameCores_mapSuccessors _).trans (sameCores_mapPredecessors _)) _ _)

/-! Edges after an edit of one list -/

theorem successors_mapSuccessors (bound : id < graph.size) (f : List NodeId → List NodeId) (other : NodeId) :
    ((graph.mapSuccessors id f).node other).successors =
      if id = other then f (graph.node id).successors else (graph.node other).successors := by
  rw [mapSuccessors, node_modify]
  by_cases same : id = other
  · subst same
    simp [bound, Node.mapSuccessors]
  · simp [same]

theorem predecessors_mapPredecessors (bound : id < graph.size) (f : List NodeId → List NodeId)
    (other : NodeId) :
    ((graph.mapPredecessors id f).node other).predecessors =
      if id = other then f (graph.node id).predecessors else (graph.node other).predecessors := by
  rw [mapPredecessors, node_modify]
  by_cases same : id = other
  · subst same
    simp [bound, Node.mapPredecessors]
  · simp [same]

@[simp] theorem predecessors_mapSuccessors (f : List NodeId → List NodeId) (other : NodeId) :
    ((graph.mapSuccessors id f).node other).predecessors = (graph.node other).predecessors :=
  field_modify Node.predecessors (·.mapSuccessors f) (fun _ => rfl) other

@[simp] theorem successors_mapPredecessors (f : List NodeId → List NodeId) (other : NodeId) :
    ((graph.mapPredecessors id f).node other).successors = (graph.node other).successors :=
  field_modify Node.successors (·.mapPredecessors f) (fun _ => rfl) other

/-! Operations on the rest of a node leave edges alone -/

theorem sameEdges_modify (f : Node → Node) (successors : ∀ node, (f node).successors = node.successors)
    (predecessors : ∀ node, (f node).predecessors = node.predecessors) : SameEdges graph (graph.modify id f) :=
  ⟨field_modify Node.successors f successors, field_modify Node.predecessors f predecessors⟩

theorem Node.successors_mapInstructions (node : Node) (f : List Instruction → List Instruction) :
    (node.mapInstructions f).successors = node.successors := by
  unfold Node.mapInstructions
  split <;> rfl

theorem Node.predecessors_mapInstructions (node : Node) (f : List Instruction → List Instruction) :
    (node.mapInstructions f).predecessors = node.predecessors := by
  unfold Node.mapInstructions
  split <;> rfl

theorem sameEdges_mapInstructions (f : List Instruction → List Instruction) :
    SameEdges graph (graph.mapInstructions id f) :=
  sameEdges_modify _ (·.successors_mapInstructions f) (·.predecessors_mapInstructions f)

theorem sameEdges_setParent (parent : Option NodeId) : SameEdges graph (graph.setParent id parent) :=
  sameEdges_modify _ (fun _ => rfl) (fun _ => rfl)

theorem sameEdges_mapKind (f : Kind → Kind) : SameEdges graph (graph.mapKind id f) :=
  sameEdges_modify _ (fun _ => rfl) (fun _ => rfl)

theorem sameEdges_absorb (owner : NodeId) (level : Option NodeId) (start stop : Nat) :
    SameEdges graph (graph.absorb owner level start stop) := by
  constructor <;> intro id <;> rw [node_absorb] <;> split <;> rfl

theorem sameEdges_addNode (kind : Kind) (start stop : Nat) (parent : Option NodeId) :
    SameEdges graph (graph.addNode kind start stop parent) := by
  constructor <;> intro id <;> rw [node_addNode] <;> split
  · next same => rw [same, node_of_size_le (Nat.le_refl graph.size)]; rfl
  · rfl
  · next same => rw [same, node_of_size_le (Nat.le_refl graph.size)]; rfl
  · rfl

end Structuring.FlowGraph
