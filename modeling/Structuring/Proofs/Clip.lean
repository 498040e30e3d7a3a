import Structuring.Proofs.Revision

/-! Scaffolding clipped off blocks.

Before a structure is put around nodes, the branches that it stands for are taken out of blocks,
with the edges that belong to them. All of this comes down to a few operations on single blocks.
-/

namespace Structuring

open Bytecode Recovery

theorem Bytecode.Instruction.opcode_eq {inst : Instruction} {opcode : Opcode} {target : Nat}
    (goes : inst.targetOf? opcode = some target) : inst.opcode = opcode :=
  eq_of_beq (Option.ite_none_right_eq_some.mp goes).1

namespace FlowGraph

variable {rights : Rights} {graph next : FlowGraph} {id : NodeId} {opcode : Opcode}

/-- One operation on a block. If it takes instructions from the end, it cuts edges as well. -/
inductive Clip (rights : Rights) (graph : FlowGraph) : FlowGraph → Prop
  | strip (id : NodeId) (f : List Instruction → List Instruction)
      (shorter : ∀ instructions, f instructions <+: instructions) :
      Clip rights graph ((graph.mapInstructions id f).clearSuccessors id)
  | halve (id : NodeId) (f : List Instruction → List Instruction)
      (shorter : ∀ instructions, f instructions <+: instructions) :
      Clip rights graph ((graph.mapInstructions id f).dropSecondEdge id)
  | shift (id : NodeId)
      (discards : ∀ first, (graph.node id).instructions.head? = some first → first.opcode = .popz) :
      Clip rights graph (graph.shiftInstruction id)
  | cut (source target : NodeId) : Clip rights graph (graph.removeEdge source target)
  | clear (id : NodeId) : Clip rights graph (graph.clearSuccessors id)
  | mark (block : NodeId) (sentinel : Sentinel)
      (means : ∀ jump, (graph.node block).last? = some jump →
        jump.opcode = .b ∧ (sentinel ≠ .empty → rights.marks block jump sentinel)) :
      Clip rights graph (graph.replaceJump block sentinel).1

theorem Clip.edits (clip : Clip rights graph next) : GraphEdits rights.settled graph next := by
  cases clip with
  | strip id f shorter => exact .tail (shorten_isPrefix shorter) (.clearSuccessors id)
  | halve id f shorter => exact .trans (shorten_isPrefix shorter) (edits_dropSecondEdge _ id)
  | shift id discards => exact edits_shiftInstruction discards
  | cut source target => exact (GraphEdit.removeEdge source target).one
  | clear id => exact (GraphEdit.clearSuccessors id).one
  | mark block sentinel means =>
    cases last : (graph.node block).last? with
    | none =>
      simp only [replaceJump, last]
      exact .refl
    | some jump => exact .single (.mark block jump sentinel last (means jump last))

theorem Clip.parent_eq (clip : Clip rights graph next) (bound : id < graph.size) :
    (next.node id).parent = (graph.node id).parent := by
  cases clip with
  | strip other f _ => exact ((sameCores_clearSuccessors _ other).parent id).trans (parent_mapInstructions f id)
  | halve other f _ => exact ((sameCores_dropSecondEdge _ other).parent id).trans (parent_mapInstructions f id)
  | shift other _ => exact parent_mapInstructions _ id
  | cut source target => exact (sameCores_removeEdge graph source target).parent id
  | clear other => exact (sameCores_clearSuccessors graph other).parent id
  | mark block sentinel _ => exact parent_replaceJump block sentinel bound

/-- A sentinel that one operation makes is on the level of the block whose jump it stands for. -/
theorem Clip.fresh {which : Sentinel} (clip : Clip rights graph next) (outside : graph.size ≤ id)
    (isSentinel : (next.node id).kind = .sentinel which) (proper : which ≠ .empty) :
    ∃ block jump, Marked rights graph (next.node id) block jump which ∧
      (next.node id).parent = (graph.node block).parent := by
  have absent (same : next.size ≤ id) : which = .empty := by
    rw [node_of_size_le same] at isSentinel
    exact (Kind.sentinel.inj isSentinel).symm
  cases clip with
  | strip other f _ =>
    refine absurd (absent ?_) proper
    rwa [(sameCores_clearSuccessors _ other).size, size_mapInstructions]
  | halve other f _ =>
    refine absurd (absent ?_) proper
    rwa [(sameCores_dropSecondEdge _ other).size, size_mapInstructions]
  | shift other _ =>
    refine absurd (absent ?_) proper
    rwa [shiftInstruction, size_mapInstructions]
  | cut source target =>
    refine absurd (absent ?_) proper
    rwa [(sameCores_removeEdge graph source target).size]
  | clear other =>
    refine absurd (absent ?_) proper
    rwa [(sameCores_clearSuccessors graph other).size]
  | mark block sentinel means =>
    cases last : (graph.node block).last? with
    | none =>
      refine absurd (absent ?_) proper
      simpa only [replaceJump, last] using outside
    | some jump =>
      rcases (replaceJump_spec last sentinel).2 with same | ⟨grown, _, becomes⟩
      · exact absurd (absent (same ▸ outside)) proper
      · by_cases here : id = graph.size
        · subst here
          obtain rfl : sentinel = which :=
            Kind.sentinel.inj (becomes.kind.sentinel_eq.symm.trans isSentinel)
          exact ⟨block, jump, ⟨last, (means jump last).2 proper, becomes.start, becomes.stop, isSentinel⟩,
            parent_replaceJump_new last proper⟩
        · exact absurd (absent (grown ▸ Nat.lt_of_le_of_ne outside (Ne.symm here))) proper

abbrev Clips (rights : Rights) : FlowGraph → FlowGraph → Prop := Relation.ReflTransGen (Clip rights)

namespace Clips

theorem settled (clips : Clips rights graph next) : GraphEdits rights.settled graph next := by
  induction clips with
  | refl => exact .refl
  | tail _ clip ih => exact ih.trans clip.edits

theorem edits (clips : Clips rights graph next) : GraphEdits rights graph next :=
  clips.settled.mono rights.settled_within

theorem maintains (clips : Clips rights graph next) : Maintains graph next := clips.edits.maintains

theorem parent_eq (clips : Clips rights graph next) (bound : id < graph.size) :
    (next.node id).parent = (graph.node id).parent := by
  induction clips with
  | refl => rfl
  | tail before clip ih => exact (clip.parent_eq (Clips.maintains before |>.grows.lt bound)).trans ih

theorem fresh {which : Sentinel} (clips : Clips rights graph next) (outside : graph.size ≤ id)
    (isSentinel : (next.node id).kind = .sentinel which) (proper : which ≠ .empty) :
    ∃ middle block jump, Clips rights graph middle ∧ Marked rights middle (next.node id) block jump which ∧
      (next.node id).parent = (middle.node block).parent := by
  induction clips with
  | refl =>
    rw [node_of_size_le outside] at isSentinel
    exact absurd (Kind.sentinel.inj isSentinel).symm proper
  | @tail middle _ before clip ih =>
    by_cases inside : id < middle.size
    · have becomes := (Clips.maintains (.single clip)).grows.nodes id inside
      have kind := becomes.kind
      rw [isSentinel] at kind
      obtain ⟨first, block, jump, toFirst, marked, level⟩ := ih kind.eq_sentinel
      exact ⟨first, block, jump, toFirst, ⟨marked.last, marked.marks, becomes.start.trans marked.start,
        becomes.stop.trans marked.stop, isSentinel⟩, (clip.parent_eq inside).trans level⟩
    · obtain ⟨block, jump, marked, level⟩ := clip.fresh (Nat.le_of_not_lt inside) isSentinel proper
      exact ⟨middle, block, jump, before, marked, level⟩

theorem fragmentBlocks_eq (clips : Clips rights graph next) (fragment : NodeId) :
    fragmentBlocks next fragment = fragmentBlocks graph fragment := by
  have edits := clips.settled
  clear clips
  induction edits with
  | refl => rfl
  | tail _ edit ih => exact (edit.fragmentBlocks_eq id fragment).trans ih

theorem dropBranch (graph : FlowGraph) (id : NodeId) (opcode : Opcode) :
    Clips rights graph (graph.dropBranch id opcode) := by
  unfold FlowGraph.dropBranch popIf
  split
  · exact .single (.strip id _ fun _ => List.dropLast_prefix _)
  · exact .single (.clear id)

theorem dropSecondBranch (graph : FlowGraph) (id : NodeId) (opcode : Opcode) :
    Clips rights graph ((graph.popIf id opcode).dropSecondEdge id) := by
  unfold popIf
  split
  · exact .single (.halve id _ fun _ => List.dropLast_prefix _)
  · unfold dropSecondEdge
    split
    · exact .single (.cut _ _)
    · exact .refl

theorem foldl_removeAllEdges (sources : List NodeId) (graph : FlowGraph) (target : NodeId) :
    Clips rights graph (sources.foldl (fun graph source => graph.removeAllEdges source target) graph) := by
  have removes (graph : FlowGraph) (source : NodeId) : Clips rights graph (graph.removeAllEdges source target) :=
    removeAllEdges_induction (Clips rights graph) .refl fun _ ih => ih.tail (.cut source target)
  induction sources generalizing graph with
  | nil => exact .refl
  | cons first rest ih => exact (removes graph first).trans (ih _)

theorem foldl_removeEdge (targets : List NodeId) (graph : FlowGraph) (source : NodeId) :
    Clips rights graph (targets.foldl (fun graph target => graph.removeEdge source target) graph) := by
  induction targets generalizing graph with
  | nil => exact .refl
  | cons first rest ih => exact .head (.cut source first) (ih _)

theorem cutEdgesInto (graph : FlowGraph) (level : Option NodeId) (start stop : Nat) (target : NodeId) :
    Clips rights graph (graph.cutEdgesInto level start stop target) :=
  foldl_removeAllEdges _ graph target

theorem clearDrop (graph : FlowGraph) (drop : NodeId) : Clips rights graph (clearDrop graph drop) :=
  .head (.strip drop _ fun _ => List.nil_prefix) (foldl_removeAllEdges _ _ drop)

theorem dropDiscard (graph : FlowGraph) (block : NodeId) : Clips rights graph (dropDiscard graph block) := by
  rcases dropDiscard_or graph block with same | ⟨discards, same⟩ <;> rw [same]
  exact .single (.shift block discards)

end Clips

theorem edits_dropBranch (graph : FlowGraph) (block : NodeId) (opcode : Opcode) :
    GraphEdits rights graph (graph.dropBranch block opcode) :=
  (Clips.dropBranch graph block opcode).edits

/-- A block leads to a node at some point while a graph is clipped. -/
def LeadsAmid (rights : Rights) (graph next : FlowGraph) (block target : NodeId) : Prop :=
  ∃ middle, Clips rights graph middle ∧ Clips rights middle next ∧ target ∈ (middle.node block).successors

theorem LeadsAmid.lt {block target : NodeId} (leads : LeadsAmid rights graph next block target)
    (sound : graph.Sound) : target < next.size := by
  obtain ⟨middle, toMiddle, toNext, member⟩ := leads
  exact toNext.maintains.grows.lt ((toMiddle.maintains.sound sound).edges.target_lt member)

end FlowGraph

namespace Recovery

open FlowGraph

theorem Revises.clip_bind {β : Type} {rights : Rights} {session : Session} {f : FlowGraph → FlowGraph}
    {rest : Unit → Recover β} {last : β → Session → Prop}
    (clips : Clips rights session.graph (f session.graph))
    (second : ∀ next, next.Sound → Edits rights session next → next.graph = f session.graph →
      Clips rights session.graph next.graph → Revises rights (rest ()) next last) :
    Revises rights (Recovery.modifyGraph f >>= rest) session last :=
  .modifyGraph_bind clips.edits fun next sound edits same =>
    second next sound edits same (same ▸ clips)

end Recovery

end Structuring
