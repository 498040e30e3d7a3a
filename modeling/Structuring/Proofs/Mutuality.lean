import Structuring.FlowGraph.Check
import Structuring.Proofs.Lookup

/-! Edges recorded on both of their ends.

A graph is mutual if any two nodes record the edges between them the same number of times. Every
operation on edges keeps a mutual graph mutual, with repeated edges and edges of a node to itself
among them, and the check of whole graphs finds nothing to report in it.
-/

namespace Structuring.FlowGraph

open Bytecode

variable {graph next : FlowGraph} {id source target old new : NodeId}

/-- Every edge is recorded at its source as often as at its target. Numbers outside the graph count
as nodes without edges, so no edge leads to one. -/
def Mutual (graph : FlowGraph) : Prop :=
  ∀ source target, (graph.node source).successors.count target = (graph.node target).predecessors.count source

theorem lt_size_of_mem_successors (member : target ∈ (graph.node source).successors) : source < graph.size := by
  apply Nat.lt_of_not_le
  intro outside
  rw [node_of_size_le outside] at member
  exact List.not_mem_nil member

theorem lt_size_of_mem_predecessors (member : source ∈ (graph.node target).predecessors) :
    target < graph.size := by
  apply Nat.lt_of_not_le
  intro outside
  rw [node_of_size_le outside] at member
  exact List.not_mem_nil member

namespace Mutual

theorem mem_predecessors_iff (balanced : graph.Mutual) :
    source ∈ (graph.node target).predecessors ↔ target ∈ (graph.node source).successors := by
  rw [← List.count_pos_iff, ← List.count_pos_iff, balanced source target]

theorem target_lt (balanced : graph.Mutual) (member : target ∈ (graph.node source).successors) :
    target < graph.size :=
  lt_size_of_mem_predecessors (balanced.mem_predecessors_iff.mpr member)

theorem source_lt (balanced : graph.Mutual) (member : source ∈ (graph.node target).predecessors) :
    source < graph.size :=
  lt_size_of_mem_successors (balanced.mem_predecessors_iff.mp member)

end Mutual

theorem mutual_empty : Mutual {} := by
  intro source target
  rw [node_of_size_le (Nat.zero_le source), node_of_size_le (Nat.zero_le target)]
  rfl

theorem SameEdges.mutual (same : SameEdges graph next) (balanced : graph.Mutual) : next.Mutual := by
  intro source target
  rw [same.successors, same.predecessors]
  exact balanced source target

/-! Adding and removing one edge -/

theorem mutual_addEdge (balanced : graph.Mutual) (sourceBound : source < graph.size)
    (targetBound : target < graph.size) : (graph.addEdge source target).Mutual := by
  intro a b
  have bound : target < (graph.mapSuccessors source (· ++ [target])).size := by
    rw [(sameCores_mapSuccessors _).size]
    exact targetBound
  rw [addEdge, successors_mapPredecessors, successors_mapSuccessors sourceBound,
    predecessors_mapPredecessors bound, predecessors_mapSuccessors]
  have before := balanced a b
  by_cases atSource : source = a <;> by_cases atTarget : target = b <;> simp_all

theorem mutual_removeEdge (balanced : graph.Mutual) (source target : NodeId) :
    (graph.removeEdge source target).Mutual := by
  unfold removeEdge hasEdge
  split
  · next present =>
    have member : target ∈ (graph.node source).successors := List.contains_iff_mem.mp present
    have sourceBound := lt_size_of_mem_successors member
    have bound : target < (graph.mapSuccessors source (·.erase target)).size := by
      rw [(sameCores_mapSuccessors _).size]
      exact balanced.target_lt member
    intro a b
    rw [successors_mapPredecessors, successors_mapSuccessors sourceBound,
      predecessors_mapPredecessors bound, predecessors_mapSuccessors]
    have before := balanced a b
    by_cases atSource : source = a <;> by_cases atTarget : target = b <;> simp_all [List.count_erase]
  · exact balanced

/-! Clearing the edges that leave a node -/

/-- Erasing a source at each of its targets takes one record away for every time the target is
listed. -/
theorem count_predecessors_foldl_erase (source : NodeId) (targets : List NodeId) (graph : FlowGraph)
    (bounds : ∀ target ∈ targets, target < graph.size) (a b : NodeId) :
    ((targets.foldl (fun graph target => graph.mapPredecessors target (·.erase source))
        graph).node b).predecessors.count a =
      (graph.node b).predecessors.count a - (if a = source then targets.count b else 0) := by
  induction targets generalizing graph with
  | nil => simp
  | cons target rest ih =>
    have sizes : (graph.mapPredecessors target (·.erase source)).size = graph.size :=
      (sameCores_mapPredecessors _).size
    rw [List.foldl_cons, ih _ fun other member => sizes ▸ bounds other (.tail _ member),
      predecessors_mapPredecessors (bounds target (.head _))]
    by_cases atTarget : target = b <;> by_cases atSource : a = source <;> simp_all
    omega

theorem successors_foldl_erase (source : NodeId) (targets : List NodeId) (graph : FlowGraph) (id : NodeId) :
    ((targets.foldl (fun graph target => graph.mapPredecessors target (·.erase source))
        graph).node id).successors = (graph.node id).successors := by
  induction targets generalizing graph with
  | nil => rfl
  | cons target rest ih => rw [List.foldl_cons, ih, successors_mapPredecessors]

theorem successors_clearSuccessors (graph : FlowGraph) (id other : NodeId) :
    ((graph.clearSuccessors id).node other).successors =
      if id = other then [] else (graph.node other).successors := by
  rw [clearSuccessors, successors_foldl_erase]
  by_cases bound : id < graph.size
  · exact successors_mapSuccessors bound _ other
  · rw [mapSuccessors, node_modify]
    by_cases same : id = other
    · subst same
      simp [bound, node_of_size_le (Nat.le_of_not_lt bound), Node.absent]
    · simp [same]

theorem mutual_clearSuccessors (balanced : graph.Mutual) (id : NodeId) : (graph.clearSuccessors id).Mutual := by
  intro a b
  rw [successors_clearSuccessors, clearSuccessors, count_predecessors_foldl_erase, predecessors_mapSuccessors]
  · have before := balanced a b
    by_cases same : id = a
    · subst same
      simp [before]
    · have other : a ≠ id := Ne.symm same
      simp [same, other, before]
  · intro target member
    rw [(sameCores_mapSuccessors _).size]
    exact balanced.target_lt member

/-! Leading the edges into a node elsewhere -/

theorem count_replace (old new x : NodeId) (ids : List NodeId) (member : old ∈ ids) :
    (ids.replace old new).count x + (if old = x then 1 else 0) = ids.count x + (if new = x then 1 else 0) := by
  induction ids with
  | nil => cases member
  | cons first rest ih =>
    by_cases found : old = first
    · subst found
      simp only [List.replace_cons_self, List.count_cons, beq_iff_eq]
      omega
    · have later : old ∈ rest := by
        rcases List.mem_cons.mp member with same | later
        · exact absurd same found
        · exact later
      have unequal : (old == first) = false := by simpa using found
      have rest := ih later
      simp only [List.replace_cons, unequal, List.count_cons]
      omega

def PendingAt (graph : FlowGraph) (old : NodeId) (pending : List NodeId) : Prop :=
  ∀ source target,
    (graph.node source).successors.count target =
      (graph.node target).predecessors.count source + (if old = target then pending.count source else 0)

theorem pendingAt_step {pending : List NodeId} (bound : new < graph.size)
    (holds : graph.PendingAt old (source :: pending)) :
    ((graph.mapSuccessors source (·.replace old new)).mapPredecessors new
      (· ++ [source])).PendingAt old pending := by
  have member : old ∈ (graph.node source).successors := by
    rw [← List.count_pos_iff, holds source old, if_pos rfl, List.count_cons_self]
    omega
  have sourceBound := lt_size_of_mem_successors member
  have newBound : new < (graph.mapSuccessors source (·.replace old new)).size := by
    rw [(sameCores_mapSuccessors _).size]
    exact bound
  intro a b
  rw [successors_mapPredecessors, successors_mapSuccessors sourceBound, predecessors_mapPredecessors newBound]
  simp only [predecessors_mapSuccessors]
  have before := holds a b
  have replaced := count_replace old new b (graph.node source).successors member
  by_cases atSource : source = a
  · subst atSource
    rw [List.count_cons_self] at before
    by_cases atNew : new = b <;> by_cases atOld : old = b <;>
      simp only [atNew, atOld, if_true, if_false, List.count_append, List.count_cons_self,
        List.count_nil] at before replaced ⊢ <;> omega
  · rw [List.count_cons_of_ne atSource] at before
    by_cases atNew : new = b <;>
      simp only [atNew, atSource, if_true, if_false, List.count_append,
        List.count_cons_of_ne atSource, List.count_nil] at before ⊢ <;> omega

theorem pendingAt_foldl (pending : List NodeId) (graph : FlowGraph)
    (bound : new < graph.size) (holds : graph.PendingAt old pending) :
    (pending.foldl
      (fun graph source => (graph.mapSuccessors source (·.replace old new)).mapPredecessors new (· ++ [source]))
      graph).PendingAt old [] := by
  induction pending generalizing graph with
  | nil => exact holds
  | cons source rest ih =>
    refine ih _ ?_ (pendingAt_step bound holds)
    rw [(sameCores_mapPredecessors _).size, (sameCores_mapSuccessors _).size]
    exact bound

theorem mutual_movePredecessors (balanced : graph.Mutual) (old : NodeId)
    (bound : new < graph.size) : (graph.movePredecessors old new).Mutual := by
  have start : (graph.mapPredecessors old fun _ => []).PendingAt old (graph.node old).predecessors := by
    intro a b
    have before := balanced a b
    rw [successors_mapPredecessors, before]
    by_cases inside : old < graph.size
    · rw [predecessors_mapPredecessors inside]
      by_cases same : old = b
      · subst same
        simp
      · simp [same]
    · rw [mapPredecessors, node_modify, node_of_size_le (Nat.le_of_not_lt inside)]
      by_cases same : old = b
      · subst same
        simp [inside, Node.absent]
      · simp [same]
  have sizes : new < (graph.mapPredecessors old fun _ => []).size := by
    rw [(sameCores_mapPredecessors _).size]
    exact bound
  intro a b
  have done := pendingAt_foldl _ _ sizes start a b
  simpa [movePredecessors] using done

/-! The check of whole graphs -/

theorem Mutual.mismatchAt?_eq_none (balanced : graph.Mutual) (source target : NodeId) :
    graph.mismatchAt? source target = none := if_pos (balanced source target)

theorem Mutual.edgeMismatch?_eq_none (balanced : graph.Mutual) : graph.edgeMismatch? = none := by
  rw [edgeMismatch?, List.findSome?_eq_none_iff]
  intro id _
  simp [mismatchOf?, balanced.mismatchAt?_eq_none]

end Structuring.FlowGraph
