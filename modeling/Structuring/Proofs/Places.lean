import Structuring.Proofs.Edit

/-! Nodes in their places.

Most operations leave every node that exists where it is: over the same addresses and on the same
level. They then differ only in what they do to instructions and to edges.
-/

namespace Structuring.FlowGraph

open Bytecode Recovery

variable {graph next final : FlowGraph} {id other source old new : NodeId}

structure Keeps (graph next : FlowGraph) : Prop where
  size : graph.size ≤ next.size
  start : ∀ id < graph.size, (next.node id).start = (graph.node id).start
  stop : ∀ id < graph.size, (next.node id).stop = (graph.node id).stop
  parent : ∀ id < graph.size, (next.node id).parent = (graph.node id).parent

namespace Keeps

theorem refl (graph : FlowGraph) : Keeps graph graph :=
  ⟨Nat.le_refl _, fun _ _ => rfl, fun _ _ => rfl, fun _ _ => rfl⟩

theorem lt (keeps : Keeps graph next) (bound : id < graph.size) : id < next.size :=
  Nat.lt_of_lt_of_le bound keeps.size

theorem trans (first : Keeps graph next) (second : Keeps next final) : Keeps graph final where
  size := Nat.le_trans first.size second.size
  start id bound := (second.start id (first.lt bound)).trans (first.start id bound)
  stop id bound := (second.stop id (first.lt bound)).trans (first.stop id bound)
  parent id bound := (second.parent id (first.lt bound)).trans (first.parent id bound)

theorem of_sameCores (same : SameCores graph next) : Keeps graph next :=
  ⟨Nat.le_of_eq same.size.symm, fun id _ => same.start id, fun id _ => same.stop id, fun id _ => same.parent id⟩

theorem of_modify {f : Node → Node} (start : ∀ node, (f node).start = node.start)
    (stop : ∀ node, (f node).stop = node.stop) (parent : ∀ node, (f node).parent = node.parent) :
    Keeps graph (graph.modify id f) :=
  ⟨Nat.le_of_eq (size_modify f).symm, fun other _ => field_modify Node.start f start other,
    fun other _ => field_modify Node.stop f stop other,
    fun other _ => field_modify Node.parent f parent other⟩

theorem mapKind (graph : FlowGraph) (id : NodeId) (f : Kind → Kind) : Keeps graph (graph.mapKind id f) :=
  of_modify (fun _ => rfl) (fun _ => rfl) fun _ => rfl

theorem mapInstructions (graph : FlowGraph) (id : NodeId) (f : List Instruction → List Instruction) :
    Keeps graph (graph.mapInstructions id f) := by
  refine of_modify (fun node => ?_) (fun node => ?_) fun node => node.parent_mapInstructions f
  · unfold Node.mapInstructions
    split <;> rfl
  · unfold Node.mapInstructions
    split <;> rfl

theorem popIf (graph : FlowGraph) (id : NodeId) (opcode : Opcode) : Keeps graph (graph.popIf id opcode) := by
  unfold FlowGraph.popIf
  split
  · exact mapInstructions graph id _
  · exact refl graph

theorem dropBranch (graph : FlowGraph) (id : NodeId) (opcode : Opcode) :
    Keeps graph (graph.dropBranch id opcode) :=
  (popIf graph id opcode).trans (of_sameCores (sameCores_clearSuccessors _ id))

theorem addNode (graph : FlowGraph) (kind : Kind) (start stop : Nat) (parent : Option NodeId) :
    Keeps graph (graph.addNode kind start stop parent) := by
  have old (id : NodeId) (bound : id < graph.size) :
      (graph.addNode kind start stop parent).node id = graph.node id := by
    rw [node_addNode, if_neg (Nat.ne_of_lt bound)]
  exact ⟨by simp, fun id bound => by rw [old id bound], fun id bound => by rw [old id bound],
    fun id bound => by rw [old id bound]⟩

theorem addEdge (graph : FlowGraph) (source target : NodeId) :
    Keeps graph (graph.addEdge source target) := of_sameCores (sameCores_addEdge source target)

theorem substitute (graph : FlowGraph) (old new : NodeId) : Keeps graph (graph.substitute old new) := by
  have moves := of_sameCores (sameCores_movePredecessors graph old new)
  unfold FlowGraph.substitute
  dsimp only
  split
  · exact moves.trans (mapKind _ _ _)
  · exact moves

theorem replaceJump (graph : FlowGraph) (block : NodeId) (sentinel : Sentinel) :
    Keeps graph (graph.replaceJump block sentinel).1 := by
  have cut : Keeps graph ((graph.popInstruction block).clearSuccessors block) :=
    (mapInstructions graph block _).trans (of_sameCores (sameCores_clearSuccessors _ block))
  unfold FlowGraph.replaceJump
  split
  · exact refl graph
  · next jump _ =>
    dsimp only
    generalize (graph.popInstruction block).clearSuccessors block = next at cut ⊢
    have marked := addNode next (.sentinel sentinel) jump.address jump.nextAddress (next.node block).parent
    split
    · exact cut
    · split
      · exact cut.trans (marked.trans (substitute _ block next.size))
      · exact cut.trans (marked.trans (addEdge _ block next.size))

end Keeps

/-! Sizes, and nodes apart from the one that is edited -/

@[simp] theorem size_addEdge (source target : NodeId) :
    (graph.addEdge source target).size = graph.size := (sameCores_addEdge source target).size

@[simp] theorem size_clearSuccessors : (graph.clearSuccessors id).size = graph.size :=
  (sameCores_clearSuccessors graph id).size

@[simp] theorem size_popIf (opcode : Opcode) : (graph.popIf id opcode).size = graph.size := by
  unfold popIf
  split
  · exact size_mapInstructions _
  · rfl

@[simp] theorem size_dropBranch (opcode : Opcode) : (graph.dropBranch id opcode).size = graph.size :=
  size_clearSuccessors.trans (size_popIf opcode)

theorem node_mapInstructions_of_ne (apart : id ≠ other) (f : List Instruction → List Instruction) :
    (graph.mapInstructions id f).node other = graph.node other := by
  rw [mapInstructions, node_modify, if_neg fun here => apart here.1]

theorem node_popIf_of_ne (apart : id ≠ other) (opcode : Opcode) :
    (graph.popIf id opcode).node other = graph.node other := by
  unfold popIf
  split
  · exact node_mapInstructions_of_ne apart _
  · rfl

theorem kind_dropBranch_of_ne (apart : id ≠ other) (opcode : Opcode) :
    ((graph.dropBranch id opcode).node other).kind = (graph.node other).kind := by
  rw [dropBranch, (sameCores_clearSuccessors _ id).kind, node_popIf_of_ne apart]

theorem Node.isBlock_mapInstructions (node : Node) (f : List Instruction → List Instruction) :
    (node.mapInstructions f).kind.isBlock = node.kind.isBlock := by
  unfold Node.mapInstructions
  split
  · next isKind => rw [isKind]; rfl
  · rfl

theorem isBlock_dropBranch (opcode : Opcode) (other : NodeId) :
    ((graph.dropBranch id opcode).node other).kind.isBlock = (graph.node other).kind.isBlock := by
  rw [dropBranch, (sameCores_clearSuccessors _ id).kind]
  unfold popIf
  split
  · exact field_modify (·.kind.isBlock) _ (·.isBlock_mapInstructions _) other
  · rfl

theorem mutual_dropBranch (agree : graph.Mutual) (id : NodeId) (opcode : Opcode) :
    (graph.dropBranch id opcode).Mutual := by
  refine mutual_clearSuccessors ?_ id
  unfold popIf
  split
  · exact (sameEdges_mapInstructions _).mutual agree
  · exact agree

/-! Lists of successors -/

theorem successors_addEdge (bound : source < graph.size) (target other : NodeId) :
    ((graph.addEdge source target).node other).successors =
      if source = other then (graph.node source).successors ++ [target]
      else (graph.node other).successors := by
  rw [addEdge, successors_mapPredecessors, successors_mapSuccessors bound]

theorem successors_popIf (graph : FlowGraph) (id : NodeId) (opcode : Opcode) (other : NodeId) :
    ((graph.popIf id opcode).node other).successors = (graph.node other).successors := by
  unfold popIf
  split
  · exact (sameEdges_mapInstructions _).successors other
  · rfl

theorem successors_dropBranch (graph : FlowGraph) (id : NodeId) (opcode : Opcode) (other : NodeId) :
    ((graph.dropBranch id opcode).node other).successors =
      if id = other then [] else (graph.node other).successors := by
  rw [dropBranch, successors_clearSuccessors, successors_popIf]

/-- Edges are led from one node to another by replacing some of their ends. -/
theorem successors_movePredecessors_rec {motive : List NodeId → Prop} (old new : NodeId)
    (start : motive (graph.node other).successors)
    (step : ∀ list, motive list → motive (list.replace old new)) :
    motive ((graph.movePredecessors old new).node other).successors := by
  unfold movePredecessors
  refine List.foldlRecOn (motive := fun next : FlowGraph => motive (next.node other).successors) _ _ ?_ ?_
  · rwa [successors_mapPredecessors]
  · intro next kept source _
    rw [successors_mapPredecessors]
    by_cases bound : source < next.size
    · rw [successors_mapSuccessors bound]
      split
      · next here => exact here ▸ step _ kept
      · exact kept
    · rw [mapSuccessors, node_modify, if_neg]
      · exact kept
      · rintro ⟨rfl, inside⟩
        exact bound inside

theorem successors_movePredecessors_of_not_mem (absent : old ∉ (graph.node other).successors) :
    ((graph.movePredecessors old new).node other).successors = (graph.node other).successors := by
  refine successors_movePredecessors_rec (motive := fun list => list = _) old new rfl ?_
  rintro list rfl
  exact List.replace_of_not_mem absent

/-- If two nodes look the same, so do the ends of the edges led from one to the other. -/
theorem map_successors_movePredecessors {β : Type} (look : NodeId → β)
    (same : look new = look old) (graph : FlowGraph) (other : NodeId) :
    ((graph.movePredecessors old new).node other).successors.map look =
      (graph.node other).successors.map look := by
  have replaced (list : List NodeId) : (list.replace old new).map look = list.map look := by
    induction list with
    | nil => rfl
    | cons first rest ih =>
      rw [List.replace_cons]
      split
      · next here => simp [same, eq_of_beq here]
      · simp [ih]
  exact successors_movePredecessors_rec (motive := fun list => list.map look = _) old new rfl
    fun list kept => (replaced list).trans kept

/-- Either nothing has changed, or the node that takes the place of the other is led to. -/
theorem successors_substitute_or (graph : FlowGraph) (other : NodeId) :
    ((graph.substitute old new).node other).successors = (graph.node other).successors ∨
      new ∈ ((graph.substitute old new).node other).successors := by
  have moved := successors_movePredecessors_rec old new
    (motive := fun list => list = (graph.node other).successors ∨ new ∈ list) (.inl rfl) fun list kept => ?_
  · unfold substitute
    dsimp only
    split
    · rwa [(sameEdges_mapKind _).successors]
    · exact moved
  · by_cases member : old ∈ list
    · refine .inr (List.count_pos_iff.mp ?_)
      have counts := count_replace old new new list member
      have some := List.count_pos_iff.mpr member
      rw [if_pos rfl] at counts
      split at counts
      · next same => rw [same] at some; omega
      · omega
    · rwa [List.replace_of_not_mem member]

theorem kind_substitute_of_ne (outside : (graph.node old).parent ≠ some other) :
    ((graph.substitute old new).node other).kind = (graph.node other).kind := by
  have cores := sameCores_movePredecessors graph old new
  unfold substitute
  dsimp only
  rw [cores.parent]
  split
  · next parent isParent =>
    have apart : parent ≠ other := by
      rintro rfl
      exact outside isParent
    rw [mapKind, node_modify, if_neg fun here => apart here.1, cores.kind]
  · exact cores.kind other

theorem map_successors_substitute {β : Type} (look : NodeId → β)
    (same : look new = look old) (graph : FlowGraph) (other : NodeId) :
    ((graph.substitute old new).node other).successors.map look = (graph.node other).successors.map look := by
  have moves := map_successors_movePredecessors look same graph other
  unfold substitute
  dsimp only
  split
  · rw [(sameEdges_mapKind _).successors, moves]
  · exact moves

theorem successors_addEdge_of_ne (apart : source ≠ other) (graph : FlowGraph) (target : NodeId) :
    ((graph.addEdge source target).node other).successors = (graph.node other).successors := by
  rw [addEdge, successors_mapPredecessors, mapSuccessors, node_modify, if_neg fun here => apart here.1]

theorem successors_removeEdge (graph : FlowGraph) (source target other : NodeId) :
    ((graph.removeEdge source target).node other).successors =
      if source = other then (graph.node source).successors.erase target
      else (graph.node other).successors := by
  unfold removeEdge
  split
  · next isEdge =>
    have bound : source < graph.size := lt_size_of_mem_successors (List.contains_iff_mem.mp isEdge)
    rw [successors_mapPredecessors, successors_mapSuccessors bound]
  · next noEdge =>
    split
    · next here =>
      have absent : target ∉ (graph.node source).successors := fun member =>
        noEdge (List.contains_iff_mem.mpr member)
      rw [List.erase_of_not_mem absent, here]
    · rfl

theorem successors_foldl_removeEdge_of_ne (apart : source ≠ other) (targets : List NodeId) (graph : FlowGraph) :
    ((targets.foldl (fun graph target => graph.removeEdge source target) graph).node other).successors =
      (graph.node other).successors := by
  induction targets generalizing graph with
  | nil => rfl
  | cons target rest ih => rw [List.foldl_cons, ih, successors_removeEdge, if_neg apart]

theorem count_successors_foldl_removeEdge (source : NodeId) (targets : List NodeId) (graph : FlowGraph)
    (other : NodeId) :
    ((targets.foldl (fun graph target => graph.removeEdge source target) graph).node
        source).successors.count other =
      (graph.node source).successors.count other - targets.count other := by
  induction targets generalizing graph with
  | nil => rfl
  | cons target rest ih =>
    rw [List.foldl_cons, ih, successors_removeEdge, if_pos rfl, List.count_erase, List.count_cons]
    omega

/-! Levels that a node leads to -/

def levelsAfter (graph : FlowGraph) (id : NodeId) : List (Option NodeId) :=
  (graph.node id).successors.map fun target => (graph.node target).parent

/-- Nodes that lead to the same ones as before lead to the same levels. -/
theorem levelsAfter_eq (agree : graph.Mutual) (keeps : Keeps graph next)
    (same : (next.node id).successors = (graph.node id).successors) :
    next.levelsAfter id = graph.levelsAfter id := by
  rw [levelsAfter, levelsAfter, same]
  exact List.map_congr_left fun target member => keeps.parent target (agree.target_lt member)

/-- The sentinel in the place of a jump is on the level of the block, so what led to the block leads
to the same levels as before. The block itself leads at most to the sentinel. -/
theorem levelsAfter_replaceJump (agree : graph.Mutual) {block : NodeId}
    (ends : ((graph.node block).last?).isSome = true) {sentinel : Sentinel} (marks : sentinel ≠ .empty) :
    (∀ id, id ≠ block → (graph.replaceJump block sentinel).1.levelsAfter id = graph.levelsAfter id) ∧
    ∀ level ∈ (graph.replaceJump block sentinel).1.levelsAfter block, level = (graph.node block).parent := by
  obtain ⟨jump, last⟩ := Option.isSome_iff_exists.mp ends
  have cutEdges (id : NodeId) : (((graph.popInstruction block).clearSuccessors block).node id).successors =
      if block = id then [] else (graph.node id).successors := by
    rw [successors_clearSuccessors, popInstruction, (sameEdges_mapInstructions _).successors]
  have cutSize : ((graph.popInstruction block).clearSuccessors block).size = graph.size :=
    size_clearSuccessors.trans (size_mapInstructions _)
  have cutParent (id : NodeId) : (((graph.popInstruction block).clearSuccessors block).node id).parent =
      (graph.node id).parent :=
    ((sameCores_clearSuccessors _ block).parent id).trans (parent_mapInstructions _ id)
  simp only [replaceJump, last]
  generalize (graph.popInstruction block).clearSuccessors block = cut at cutEdges cutSize cutParent ⊢
  rw [if_neg fun plain => marks plain.1, cutSize]
  generalize isMarked : cut.addNode (.sentinel sentinel) jump.address jump.nextAddress
    (cut.node block).parent = marked
  have markedEdges (id : NodeId) : (marked.node id).successors =
      if block = id then [] else (graph.node id).successors :=
    isMarked ▸ ((sameEdges_addNode _ _ _ _).successors id).trans (cutEdges id)
  have markedParent (id : NodeId) : (marked.node id).parent =
      if id = graph.size then (graph.node block).parent else (graph.node id).parent := by
    rw [← isMarked, node_addNode, cutSize]
    split
    · exact cutParent block
    · exact cutParent id
  have bound : block < graph.size := lt_size_of_isBlock (Node.isBlock_of_last? last)
  have markedSize : marked.size = graph.size + 1 := by rw [← isMarked, size_addNode, cutSize]
  have onLevel : (marked.node graph.size).parent = (marked.node block).parent := by
    rw [markedParent, if_pos rfl, markedParent, if_neg (Nat.ne_of_lt bound)]
  -- The two ways to put the sentinel in differ in the edges of the block only.
  have rest (final : FlowGraph) (parents : ∀ id, (final.node id).parent = (marked.node id).parent)
      (others : ∀ id, id ≠ block → (final.node id).successors.map (fun target => (marked.node target).parent) =
        (graph.node id).successors.map fun target => (marked.node target).parent)
      (self : ∀ target ∈ (final.node block).successors, target = graph.size) :
      (∀ id, id ≠ block → final.levelsAfter id = graph.levelsAfter id) ∧
      ∀ level ∈ final.levelsAfter block, level = (graph.node block).parent := by
    have look : (fun target => (final.node target).parent) = fun target => (marked.node target).parent :=
      funext parents
    refine ⟨fun id apart => ?_, fun level member => ?_⟩
    · rw [levelsAfter, look, others id apart]
      refine List.map_congr_left fun target member => ?_
      rw [markedParent, if_neg (Nat.ne_of_lt (agree.target_lt member))]
    · obtain ⟨target, isTarget, rfl⟩ := List.mem_map.mp member
      rw [self target isTarget, parents, markedParent, if_pos rfl]
  have markedOthers (id : NodeId) (apart : id ≠ block) : (marked.node id).successors =
      (graph.node id).successors := by rw [markedEdges, if_neg apart.symm]
  have markedSelf : (marked.node block).successors = [] := by rw [markedEdges, if_pos rfl]
  split
  · have levels := map_successors_substitute (fun target => (marked.node target).parent) onLevel marked
    refine rest _ (parent_substitute block graph.size) (fun id apart => ?_) fun target member => ?_
    · rw [levels id, markedOthers id apart]
    · have none := levels block
      rw [markedSelf] at none
      rw [List.map_eq_nil_iff.mp none] at member
      cases member
  · have edges := successors_addEdge (markedSize ▸ Nat.lt_succ_of_lt bound : block < marked.size) graph.size
    refine rest _ (sameCores_addEdge block graph.size).parent (fun id apart => ?_) fun target member => ?_
    · rw [edges, if_neg apart.symm, markedOthers id apart]
    · rw [edges, if_pos rfl, markedSelf] at member
      exact List.mem_singleton.mp member

end Structuring.FlowGraph
