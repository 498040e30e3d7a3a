import Structuring.Proofs.Mutuality

/-! What is recorded of edges, in full.

Leading the edges into one node to another renames the node wherever it is a successor, and the check
of whole graphs reports nothing exactly if the two records of every edge agree.
-/

namespace Structuring.FlowGraph

variable {graph : FlowGraph} {old new : NodeId}

/-! The check of whole graphs -/

/-- Two records of an edge can only differ if it is on record at one of its ends. -/
theorem count_successors_eq_of_recorded {source target : NodeId}
    (recorded : target ∈ (graph.node source).successors ∨ source ∈ (graph.node target).predecessors →
      (graph.node source).successors.count target = (graph.node target).predecessors.count source) :
    (graph.node source).successors.count target = (graph.node target).predecessors.count source := by
  by_cases forward : target ∈ (graph.node source).successors
  · exact recorded (.inl forward)
  by_cases backward : source ∈ (graph.node target).predecessors
  · exact recorded (.inr backward)
  rw [List.count_eq_zero.mpr forward, List.count_eq_zero.mpr backward]

theorem edgeMismatch?_eq_none_iff_mutual : graph.edgeMismatch? = none ↔ graph.Mutual := by
  refine ⟨fun passes source target => count_successors_eq_of_recorded fun recorded => ?_,
    Mutual.edgeMismatch?_eq_none⟩
  simp only [edgeMismatch?, mismatchOf?, List.findSome?_eq_none_iff, Option.or_eq_none_iff] at passes
  have visited {id : NodeId} (bound : id < graph.size) := passes id (List.mem_range.mpr bound)
  have passed : graph.mismatchAt? source target = none := by
    rcases recorded with forward | backward
    · exact (visited (lt_size_of_mem_successors forward)).1 target forward
    · exact (visited (lt_size_of_mem_predecessors backward)).2 source backward
  simpa [mismatchAt?] using passed

/-- Both records of every edge name nodes of the graph. -/
def EdgesInside (graph : FlowGraph) : Prop :=
  ∀ id ∈ graph.ids, ∀ other ∈ (graph.node id).successors ++ (graph.node id).predecessors, other < graph.size

/-- The check finds nothing exactly if any two nodes record the edges between them equally often. -/
theorem edgeMismatch?_eq_none_iff (inside : graph.EdgesInside) :
    graph.edgeMismatch? = none ↔ ∀ source < graph.size, ∀ target < graph.size,
      (graph.node source).successors.count target = (graph.node target).predecessors.count source := by
  rw [edgeMismatch?_eq_none_iff_mutual]
  refine ⟨fun balanced source _ target _ => balanced source target, fun agree source target =>
    count_successors_eq_of_recorded fun recorded => ?_⟩
  rcases recorded with forward | backward
  · have bound := lt_size_of_mem_successors forward
    exact agree source bound target
      (inside source (List.mem_range.mpr bound) target (List.mem_append_left _ forward))
  · have bound := lt_size_of_mem_predecessors backward
    exact agree source (inside target (List.mem_range.mpr bound) source (List.mem_append_right _ backward))
      target bound

def crossed : FlowGraph :=
  [(0, 0), (0, 1), (0, 2), (2, 0), (2, 1), (2, 0)].foldl (fun graph edge => graph.addEdge edge.1 edge.2)
    (Nat.repeat (·.addNode (.sentinel .empty) 0 0 none) 3 {})

theorem edgeMismatch?_eq_none_iff_crossed :
    (crossed.mapPredecessors 0 (·.erase 2)).EdgesInside ∧
      (crossed.mapPredecessors 0 (·.erase 2)).edgeMismatch? ≠ none := by
  have inside : (crossed.mapPredecessors 0 (·.erase 2)).EdgesInside := by
    unfold EdgesInside
    decide
  refine ⟨inside, fun passes => ?_⟩
  exact absurd ((edgeMismatch?_eq_none_iff inside).mp passes 2 (by decide) 0 (by decide)) (by decide)

/-! Leading edges elsewhere -/

/-- `new` in the place of `old`. -/
def redirected (old new id : NodeId) : NodeId := if id = old then new else id

theorem redirected_eq_self {id : NodeId} (fixed : id = old → old = new) : redirected old new id = id := by
  unfold redirected
  split
  · next same => rw [same, fixed same]
  · rfl

/-- A renamed list does not show whether one entry had been replaced before. -/
theorem map_redirected_replace (old new : NodeId) (ids : List NodeId) :
    (ids.replace old new).map (redirected old new) = ids.map (redirected old new) := by
  induction ids with
  | nil => rfl
  | cons first rest ih =>
    by_cases found : old = first
    · subst found
      simp [redirected]
    · have unequal : (old == first) = false := by simpa using found
      rw [List.replace_cons, unequal, List.map_cons, List.map_cons, ih]

theorem map_redirected_successors_foldl (sources : List NodeId) (graph : FlowGraph) (id : NodeId) :
    ((sources.foldl (fun graph source =>
        (graph.mapSuccessors source (·.replace old new)).mapPredecessors new (· ++ [source]))
      graph).node id).successors.map (redirected old new) =
    (graph.node id).successors.map (redirected old new) := by
  induction sources generalizing graph with
  | nil => rfl
  | cons source rest ih =>
    rw [List.foldl_cons, ih, successors_mapPredecessors, mapSuccessors, node_modify]
    split
    · exact map_redirected_replace old new _
    · rfl

theorem predecessors_foldl_append (sources : List NodeId) (graph : FlowGraph) (bound : new < graph.size)
    (id : NodeId) :
    ((sources.foldl (fun graph source =>
        (graph.mapSuccessors source (·.replace old new)).mapPredecessors new (· ++ [source]))
      graph).node id).predecessors =
    if new = id then (graph.node new).predecessors ++ sources else (graph.node id).predecessors := by
  induction sources generalizing graph with
  | nil => by_cases same : new = id <;> simp [same]
  | cons source rest ih =>
    have inside : new < (graph.mapSuccessors source (·.replace old new)).size :=
      (sameCores_mapSuccessors _).size.symm ▸ bound
    rw [List.foldl_cons, ih _ ((sameCores_mapPredecessors _).size.symm ▸ inside)]
    simp only [predecessors_mapPredecessors inside, predecessors_mapSuccessors]
    by_cases same : new = id <;> simp [same]

theorem predecessors_cleared (old id : NodeId) :
    ((graph.mapPredecessors old fun _ => []).node id).predecessors =
      if old = id then [] else (graph.node id).predecessors := by
  by_cases bound : old < graph.size
  · exact predecessors_mapPredecessors bound _ id
  · rw [mapPredecessors, node_modify]
    by_cases same : old = id
    · subst same
      simp [bound, node_of_size_le (Nat.le_of_not_lt bound), Node.absent]
    · simp [same]

theorem predecessors_movePredecessors (old : NodeId) (bound : new < graph.size) (id : NodeId) :
    ((graph.movePredecessors old new).node id).predecessors =
      if old = new then (graph.node id).predecessors
      else if id = old then []
      else if id = new then (graph.node new).predecessors ++ (graph.node old).predecessors
      else (graph.node id).predecessors := by
  rw [movePredecessors, predecessors_foldl_append _ _ ((sameCores_mapPredecessors _).size.symm ▸ bound)]
  simp only [predecessors_cleared]
  grind

/-- Leading the edges into `old` to `new` puts `new` in each place where `old` was a successor, hands the
record of predecessors over, and keeps the two records of every edge alike. -/
theorem movePredecessors_redirects (balanced : graph.Mutual) (old : NodeId) (bound : new < graph.size) :
    (∀ id, ((graph.movePredecessors old new).node id).successors =
      (graph.node id).successors.map (redirected old new)) ∧
    (∀ id, ((graph.movePredecessors old new).node id).predecessors =
      if old = new then (graph.node id).predecessors
      else if id = old then []
      else if id = new then (graph.node new).predecessors ++ (graph.node old).predecessors
      else (graph.node id).predecessors) ∧
    (graph.movePredecessors old new).Mutual := by
  have moved := mutual_movePredecessors balanced old bound
  refine ⟨fun id => ?_, predecessors_movePredecessors old bound, moved⟩
  -- The renamed lists are equal, and once the edges are moved there is nothing left to rename.
  have renamed : ((graph.movePredecessors old new).node id).successors.map (redirected old new) =
      (graph.node id).successors.map (redirected old new) := by
    rw [movePredecessors, map_redirected_successors_foldl, successors_mapPredecessors]
  rw [← renamed]
  refine .symm ((List.map_congr_left fun target member => redirected_eq_self fun isOld => ?_).trans
    (List.map_id' _))
  have listed := moved.mem_predecessors_iff.mpr member
  rw [predecessors_movePredecessors old bound, if_pos isOld] at listed
  exact Classical.byContradiction fun apart => by simp [apart] at listed

theorem movePredecessors_redirects_crossed :
    crossed.Mutual ∧
    ((crossed.movePredecessors 0 1).node 0).successors = [1, 1, 2] ∧
    ((crossed.movePredecessors 0 1).node 2).successors = [1, 1, 1] ∧
    ((crossed.movePredecessors 0 1).node 1).predecessors = [0, 2, 0, 2, 2] := by
  have balanced : crossed.Mutual := edgeMismatch?_eq_none_iff_mutual.mp (by decide)
  obtain ⟨successors, predecessors, -⟩ := movePredecessors_redirects balanced 0 (by decide : 1 < crossed.size)
  rw [successors, successors, predecessors]
  exact ⟨balanced, by decide⟩

end Structuring.FlowGraph
