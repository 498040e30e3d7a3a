import Structuring.Proofs.Branches
import Structuring.Proofs.Clip

/-! Where jumps land.

At first a block that ends in a jump leads to the block at the target and nowhere else. When
fragments are confined a sentinel may come in the place of that block, but on the same level, so
that the level of the target can still be read off the edge.
-/

namespace Structuring.FlowGraph

open Bytecode Recovery

variable {graph next : FlowGraph} {id source target after old new block : NodeId}

def JumpsLand (graph : FlowGraph) : Prop :=
  ∀ id target, (graph.node id).jumpTarget? = some target →
    ∀ after ∈ (graph.node id).successors,
      (graph.node after).kind.isBlock = true ∧ (graph.node after).start = target

def JumpsKeepLevel (graph : FlowGraph) : Prop :=
  ∀ id target, (graph.node id).jumpTarget? = some target →
    ∀ after ∈ (graph.node id).successors, ∃ block, (graph.node block).kind.isBlock = true ∧
      (graph.node block).start = target ∧ (graph.node block).parent = (graph.node after).parent

theorem JumpsLand.jumpsKeepLevel (lands : graph.JumpsLand) : graph.JumpsKeepLevel := by
  intro id target jumps after member
  obtain ⟨isBlock, starts⟩ := lands id target jumps after member
  exact ⟨after, isBlock, starts, rfl⟩

theorem jumpsLand_empty : JumpsLand {} := by
  intro id target jumps
  rw [node_of_size_le (Nat.zero_le id)] at jumps
  exact absurd jumps (by simp [Node.jumpTarget?, Node.targetOf?, Node.last?, Node.instructions, Node.absent])

theorem Node.jumpTarget?_congr {node other : Node} (same : node.instructions = other.instructions) :
    node.jumpTarget? = other.jumpTarget? := by
  unfold Node.jumpTarget? Node.targetOf? Node.last?
  rw [same]

theorem Node.jumpTarget?_of_bare {node : Node} (bare : Bare node.instructions) : node.jumpTarget? = none := by
  refine Option.eq_none_iff_forall_ne_some.mpr fun target jumps => ?_
  obtain ⟨inst, last, goes⟩ := Option.bind_eq_some_iff.mp jumps
  have none := bare inst (List.mem_of_getLast? last)
  rw [Instruction.isBranch, (Option.ite_none_right_eq_some.mp goes).2] at none
  cases none

theorem Node.Becomes.jumpTarget? {node after : Node} {target : Nat} (becomes : node.Becomes after)
    (init : Bare node.instructions.dropLast) (jumps : after.jumpTarget? = some target) :
    node.jumpTarget? = some target := by
  rcases becomes.instructions.getLast?_or with ⟨same, _⟩ | inside
  · rw [← jumps, Node.jumpTarget?, Node.jumpTarget?, Node.targetOf?, Node.targetOf?, Node.last?, Node.last?, same]
  · rw [Node.jumpTarget?_of_bare fun inst member => init inst (inside inst member)] at jumps
    cases jumps

/-! Edges -/

theorem mem_successors_addEdge (member : after ∈ ((graph.addEdge source target).node id).successors) :
    after ∈ (graph.node id).successors ∨ id = source ∧ after = target := by
  rw [addEdge, successors_mapPredecessors, mapSuccessors, node_modify] at member
  split at member
  · next here =>
    rcases List.mem_append.mp member with old | new
    · exact .inl old
    · exact .inr ⟨here.1.symm, List.mem_singleton.mp new⟩
  · exact .inl member

theorem mem_successors_removeEdge (member : after ∈ ((graph.removeEdge source target).node id).successors) :
    after ∈ (graph.node id).successors := by
  unfold removeEdge at member
  split at member
  · rw [successors_mapPredecessors, mapSuccessors, node_modify] at member
    split at member
    · exact List.mem_of_mem_erase member
    · exact member
  · exact member

theorem mem_successors_removeAllEdges
    (member : after ∈ ((graph.removeAllEdges source target).node id).successors) :
    after ∈ (graph.node id).successors := by
  revert member
  exact removeAllEdges_induction (fun next => after ∈ (next.node id).successors → _) (fun member => member)
    fun _ kept member => kept (mem_successors_removeEdge member)

theorem mem_successors_cutEdgesInto {level : Option NodeId} {start stop : Nat}
    (member : after ∈ ((graph.cutEdgesInto level start stop target).node id).successors) :
    after ∈ (graph.node id).successors := by
  revert member
  exact List.foldlRecOn (motive := fun next : FlowGraph => after ∈ (next.node id).successors → _) _ _
    (fun member => member) fun _ kept _ _ member => kept (mem_successors_removeAllEdges member)

theorem mem_of_mem_replace {ids : List NodeId}
    (member : after ∈ ids.replace old new) : after ∈ ids ∨ after = new ∧ old ∈ ids := by
  induction ids with
  | nil => exact .inl member
  | cons first rest ih =>
    rw [List.replace_cons] at member
    grind

theorem mem_successors_movePredecessors
    (member : after ∈ ((graph.movePredecessors old new).node id).successors) :
    after ∈ (graph.node id).successors ∨ after = new ∧ old ∈ (graph.node id).successors := by
  -- While edges are being moved, every edge is one of the graph or comes from one to `old`.
  refine List.foldlRecOn (motive := fun moved : FlowGraph =>
    ∀ after ∈ (moved.node id).successors, after ∈ (graph.node id).successors ∨
      after = new ∧ old ∈ (graph.node id).successors) _ _ ?_ ?_ after member
  · intro after member
    rw [successors_mapPredecessors] at member
    exact .inl member
  · intro moved before source _ after member
    rw [successors_mapPredecessors, mapSuccessors, node_modify] at member
    split at member
    · rcases mem_of_mem_replace member with kept | ⟨rfl, there⟩
      · exact before after kept
      · rcases before old there with first | ⟨_, first⟩
        · exact .inr ⟨rfl, first⟩
        · exact .inr ⟨rfl, first⟩
    · exact before after member

/-! Steps that keep where jumps land -/

theorem JumpsLand.later (lands : graph.JumpsLand) (grows : Grows graph next)
    (each : ∀ id target, (next.node id).jumpTarget? = some target →
      ∀ after ∈ (next.node id).successors,
        ((graph.node id).jumpTarget? = some target ∧ after ∈ (graph.node id).successors) ∨
          ((next.node after).kind.isBlock = true ∧ (next.node after).start = target)) :
    next.JumpsLand := by
  intro id target jumps after member
  rcases each id target jumps after member with ⟨before, old⟩ | new
  · obtain ⟨isBlock, starts⟩ := lands id target before after old
    have becomes := grows.nodes after (lt_size_of_isBlock isBlock)
    exact ⟨becomes.kind.isBlock.trans isBlock, becomes.start.trans starts⟩
  · exact new

theorem JumpsLand.addEdge (lands : graph.JumpsLand)
    (goes : ∀ address, (graph.node source).jumpTarget? = some address →
      (graph.node target).kind.isBlock = true ∧ (graph.node target).start = address) :
    (graph.addEdge source target).JumpsLand := by
  have same : SameCores graph (graph.addEdge source target) := sameCores_addEdge source target
  refine lands.later (.of_sameCores same) fun id address jumps after member => ?_
  rw [Node.jumpTarget?_congr (same.instructions id)] at jumps
  rcases mem_successors_addEdge member with old | ⟨rfl, rfl⟩
  · exact .inl ⟨jumps, old⟩
  · rw [same.kind, same.start]
    exact .inr (goes address jumps)

theorem JumpsLand.addNode {kind : Kind} (lands : graph.JumpsLand) (start stop : Nat)
    (parent : Option NodeId) : (graph.addNode kind start stop parent).JumpsLand := by
  have edges : SameEdges graph (graph.addNode kind start stop parent) :=
    sameEdges_addNode kind start stop parent
  intro id target jumps after member
  rw [edges.successors] at member
  have bound := lt_size_of_mem_successors member
  rw [node_addNode, if_neg (Nat.ne_of_lt bound)] at jumps
  obtain ⟨isBlock, starts⟩ := lands id target jumps after member
  rw [node_addNode, if_neg (Nat.ne_of_lt (lt_size_of_isBlock isBlock))]
  exact ⟨isBlock, starts⟩

theorem instructions_popIf (opcode : Opcode) {other : NodeId} (apart : id ≠ other) :
    ((graph.popIf id opcode).node other).instructions = (graph.node other).instructions := by
  unfold popIf
  split
  · exact instructions_mapInstructions_of_ne _ apart
  · rfl

theorem JumpsLand.dropBranch (lands : graph.JumpsLand) (id : NodeId) (opcode : Opcode) :
    (graph.dropBranch id opcode).JumpsLand := by
  have edits : GraphEdits .full graph (graph.dropBranch id opcode) :=
    edits_dropBranch graph id opcode
  refine lands.later edits.maintains.grows fun other address jumps after member => ?_
  rw [FlowGraph.dropBranch, successors_clearSuccessors] at member
  split at member
  · cases member
  · next apart =>
    rw [FlowGraph.dropBranch, Node.jumpTarget?_congr ((sameCores_clearSuccessors _ id).instructions other),
      Node.jumpTarget?_congr (instructions_popIf opcode apart)] at jumps
    refine .inl ⟨jumps, ?_⟩
    unfold popIf at member
    split at member
    · rwa [popInstruction, (sameEdges_mapInstructions _).successors] at member
    · exact member

theorem instructions_ownBlock (owner block other : NodeId) :
    ((ownBlock graph owner block).node other).instructions = (graph.node other).instructions := by
  rw [ownBlock, mapKind]
  refine (field_modify Node.instructions _ (fun node => ?_) other).trans
    (field_modify Node.instructions ({ · with parent := some owner }) (fun _ => rfl) other)
  unfold Node.instructions
  cases node.kind <;> rfl

theorem JumpsLand.ownBlock {owner : NodeId} (lands : graph.JumpsLand)
    (structured : graph.Owner owner) (bound : block < graph.size) : (ownBlock graph owner block).JumpsLand := by
  refine lands.later (maintains_ownBlock structured bound).grows fun id target jumps after member => ?_
  rw [Node.jumpTarget?_congr (instructions_ownBlock owner block id)] at jumps
  rw [Recovery.ownBlock, (sameEdges_mapKind _).successors, (sameEdges_setParent _).successors] at member
  exact .inl ⟨jumps, member⟩

/-! Jumps replaced -/

theorem instructions_substitute (old new other : NodeId) :
    ((graph.substitute old new).node other).instructions = (graph.node other).instructions := by
  have moved := (sameCores_movePredecessors graph old new).instructions other
  unfold substitute
  dsimp only
  split
  · refine Eq.trans (field_modify Node.instructions _ (fun node => ?_) other) moved
    unfold Node.instructions
    cases node.kind <;> rfl
  · exact moved

theorem instructions_addNode_sentinel (sentinel : Sentinel) (start stop : Nat)
    (parent : Option NodeId) (other : NodeId) :
    ((graph.addNode (.sentinel sentinel) start stop parent).node other).instructions =
      (graph.node other).instructions := by
  rw [node_addNode]
  split
  · next here =>
    rw [here, node_of_size_le (Nat.le_refl _)]
    rfl
  · rfl

/-- A block loses the jump that is replaced, and the others keep what they hold. -/
theorem instructions_replaceJump (graph : FlowGraph) (block : NodeId) (sentinel : Sentinel)
    (other : NodeId) :
    ((graph.replaceJump block sentinel).1.node other).instructions =
      if block = other then (graph.node other).instructions.dropLast
      else (graph.node other).instructions := by
  have cut : (((graph.popInstruction block).clearSuccessors block).node other).instructions =
      if block = other then (graph.node other).instructions.dropLast
      else (graph.node other).instructions := by
    rw [(sameCores_clearSuccessors _ block).instructions, popInstruction]
    split
    · next here => rw [← here, instructions_mapInstructions rfl]
    · next apart => rw [mapInstructions, node_modify, if_neg fun here => apart here.1]
  unfold replaceJump
  split
  · next last =>
    split
    · next here =>
      rw [Node.last?, List.getLast?_eq_none_iff] at last
      rw [← here, last]
      rfl
    · rfl
  · dsimp only
    generalize (graph.popInstruction block).clearSuccessors block = next at cut
    split
    · exact cut
    · split
      · rw [instructions_substitute, instructions_addNode_sentinel, cut]
      · rw [(sameCores_addEdge _ _).instructions, instructions_addNode_sentinel, cut]

/-- The edges of other blocks stay, or lead to the sentinel that has come in the place of the block,
which is on the same level. -/
theorem mem_successors_replaceJump {sentinel : Sentinel} (apart : id ≠ block)
    (member : after ∈ ((graph.replaceJump block sentinel).1.node id).successors) :
    after ∈ (graph.node id).successors ∨ block ∈ (graph.node id).successors ∧
      ((graph.replaceJump block sentinel).1.node after).parent = (graph.node block).parent := by
  have cut (other : NodeId)
      (member : other ∈ (((graph.popInstruction block).clearSuccessors block).node id).successors) :
      other ∈ (graph.node id).successors := by
    rwa [successors_clearSuccessors, if_neg (Ne.symm apart), popInstruction,
      (sameEdges_mapInstructions _).successors] at member
  have level : (((graph.popInstruction block).clearSuccessors block).node block).parent =
      (graph.node block).parent :=
    ((sameCores_clearSuccessors _ block).parent block).trans (parent_mapInstructions _ block)
  unfold replaceJump at member ⊢
  split at member
  · exact .inl member
  · next jump _ =>
    dsimp only at member ⊢
    generalize (graph.popInstruction block).clearSuccessors block = next at cut level member ⊢
    split at member
    · next plain =>
      rw [if_pos plain]
      exact .inl (cut after member)
    · next marks =>
      rw [if_neg marks]
      have edges : SameEdges next (next.addNode (.sentinel sentinel) jump.address jump.nextAddress
          (next.node block).parent) := sameEdges_addNode _ _ _ _
      have onLevel : ((next.addNode (.sentinel sentinel) jump.address jump.nextAddress
          (next.node block).parent).node next.size).parent = (graph.node block).parent := by
        rw [node_addNode, if_pos rfl]
        exact level
      split at member
      · next emptied =>
        rw [if_pos emptied]
        generalize next.addNode (.sentinel sentinel) jump.address jump.nextAddress
          (next.node block).parent = marked at edges onLevel member ⊢
        have moved : after ∈ ((marked.movePredecessors block next.size).node id).successors := by
          unfold substitute at member
          dsimp only at member
          split at member
          · rwa [(sameEdges_mapKind _).successors] at member
          · exact member
        rcases mem_successors_movePredecessors moved with old | ⟨rfl, old⟩
        · exact .inl (cut after (edges.successors id ▸ old))
        · exact .inr ⟨cut block (edges.successors id ▸ old), (parent_substitute _ _ _).trans onLevel⟩
      · rcases mem_successors_addEdge member with old | ⟨same, _⟩
        · exact .inl (cut after (edges.successors id ▸ old))
        · exact absurd same apart

/-! Steps that keep the level of jumps -/

theorem JumpsKeepLevel.later (keeps : graph.JumpsKeepLevel) (grows : Grows graph next)
    (parents : ∀ id < graph.size, (next.node id).parent = (graph.node id).parent)
    (each : ∀ id target, (next.node id).jumpTarget? = some target →
      ∀ after ∈ (next.node id).successors, (graph.node id).jumpTarget? = some target ∧
        ∃ old ∈ (graph.node id).successors, (next.node after).parent = (graph.node old).parent) :
    next.JumpsKeepLevel := by
  intro id target jumps after member
  obtain ⟨before, old, among, level⟩ := each id target jumps after member
  obtain ⟨block, isBlock, starts, same⟩ := keeps id target before old among
  have bound := lt_size_of_isBlock isBlock
  have becomes := grows.nodes block bound
  exact ⟨block, becomes.kind.isBlock.trans isBlock, becomes.start.trans starts,
    (parents block bound).trans (same.trans level.symm)⟩

theorem JumpsKeepLevel.removeEdge (keeps : graph.JumpsKeepLevel) (source target : NodeId) :
    (graph.removeEdge source target).JumpsKeepLevel := by
  have same := sameCores_removeEdge graph source target
  refine keeps.later (.of_sameCores same) (fun id _ => same.parent id) fun id address jumps after member => ?_
  rw [Node.jumpTarget?_congr (same.instructions id)] at jumps
  exact ⟨jumps, after, mem_successors_removeEdge member, same.parent after⟩

theorem JumpsKeepLevel.replaceJump (keeps : graph.JumpsKeepLevel)
    (balanced : graph.Mutual) (init : Bare (graph.node block).instructions.dropLast)
    (sentinel : Sentinel) : (graph.replaceJump block sentinel).1.JumpsKeepLevel := by
  refine keeps.later (maintains_replaceJump graph block sentinel).grows
    (fun id bound => parent_replaceJump block sentinel bound) fun id target jumps after member => ?_
  have held := instructions_replaceJump graph block sentinel id
  by_cases here : block = id
  · rw [if_pos here, ← here] at held
    rw [← here, Node.jumpTarget?_of_bare (held ▸ init)] at jumps
    cases jumps
  · rw [if_neg here] at held
    rw [Node.jumpTarget?_congr held] at jumps
    rcases mem_successors_replaceJump (Ne.symm here) member with old | ⟨old, level⟩
    · exact ⟨jumps, after, old, parent_replaceJump block sentinel (balanced.target_lt old)⟩
    · exact ⟨jumps, block, old, level⟩

end Structuring.FlowGraph
