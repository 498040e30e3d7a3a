import Structuring.Proofs.Places

/-! Edges that leave a node.

A block has room for two edges while it ends in a branch that may not be taken, and any other node
for one. What a sentinel has room for is left open, since only some steps lead a sentinel anywhere.
Edits either leave a node at least as much room and no more edges, or they are looked at one by one:
a branch that goes takes an edge with it, and an edge is added where there is room.
-/

namespace Structuring.FlowGraph

open Bytecode Recovery

variable {graph next final : FlowGraph} {id source : NodeId} {limit : NodeId → Nat}

def Block.forks (block : Block) : Bool :=
  block.instructions.getLast?.any fun inst => inst.isBranch && inst.opcode != .b

def Block.room (block : Block) : Nat := if block.forks then 2 else 1

def Kind.room (limit : Nat) : Kind → Nat
  | .block parts => parts.room
  | .sentinel _ => limit
  | _ => 1

/-- No node has more edges than room. -/
def Slim (limit : NodeId → Nat) (graph : FlowGraph) : Prop :=
  ∀ id, (graph.node id).successors.length ≤ (graph.node id).kind.room (limit id)

theorem Block.room_bounds (block : Block) : 0 < block.room ∧ block.room ≤ 2 := by
  unfold room
  split
  · exact ⟨Nat.two_pos, Nat.le_refl 2⟩
  · exact ⟨Nat.one_pos, Nat.le_succ 1⟩

theorem Kind.room_bounds {kind : Kind} (isBlock : kind.isBlock = true) (limit : Nat) :
    0 < kind.room limit ∧ kind.room limit ≤ 2 := by
  cases kind with
  | block parts => exact parts.room_bounds
  | _ => exact absurd isBlock Bool.false_ne_true

theorem Block.room_drop_one {block : Block}
    (discards : ∀ first, block.instructions.head? = some first → first.opcode = .popz) :
    block.room ≤ Block.room { block with instructions := block.instructions.drop 1 } := by
  obtain ⟨index, instructions⟩ := block
  cases instructions with
  | nil => exact Nat.le_refl _
  | cons first rest =>
    cases rest with
    | nil =>
      have isPopz : first.opcode = .popz := discards first rfl
      have plain : first.isBranch = false := by
        simp only [Instruction.isBranch, Instruction.branchTarget?, isPopz]
        split <;> rfl
      simp [room, forks, plain]
    | cons second rest => simp [room, forks]

theorem Kind.room_replaceChild (kind : Kind) (old new : NodeId) (limit : Nat) :
    (kind.replaceChild old new).room limit = kind.room limit := by
  cases kind <;> rfl

/-! Edits that leave as much room and add no edge -/

structure Eases (graph next : FlowGraph) : Prop where
  edges : ∀ id, (next.node id).successors.length ≤ (graph.node id).successors.length
  room : ∀ id limit, (graph.node id).kind.room limit ≤ (next.node id).kind.room limit

theorem Slim.eases (slim : graph.Slim limit) (eases : Eases graph next) : next.Slim limit :=
  fun id => Nat.le_trans (eases.edges id) (Nat.le_trans (slim id) (eases.room id (limit id)))

namespace Eases

theorem refl (graph : FlowGraph) : Eases graph graph := ⟨fun _ => Nat.le_refl _, fun _ _ => Nat.le_refl _⟩

theorem trans (first : Eases graph next) (second : Eases next final) : Eases graph final :=
  ⟨fun id => Nat.le_trans (second.edges id) (first.edges id), fun id limit =>
    Nat.le_trans (first.room id limit) (second.room id limit)⟩

theorem foldl {α : Type} {step : FlowGraph → α → FlowGraph}
    (each : ∀ graph item, Eases graph (step graph item)) (items : List α) (graph : FlowGraph) :
    Eases graph (items.foldl step graph) := by
  induction items generalizing graph with
  | nil => exact .refl graph
  | cons item rest ih => exact (each graph item).trans (ih _)

theorem of_sameCores (same : SameCores graph next)
    (edges : ∀ id, (next.node id).successors.length ≤ (graph.node id).successors.length) :
    Eases graph next :=
  ⟨edges, fun id limit => Nat.le_of_eq (congrArg (Kind.room limit) (same.kind id)).symm⟩

theorem of_sameEdges (same : SameEdges graph next)
    (room : ∀ id limit, (graph.node id).kind.room limit ≤ (next.node id).kind.room limit) :
    Eases graph next :=
  ⟨fun id => Nat.le_of_eq (congrArg List.length (same.successors id)), room⟩

theorem removeEdge (graph : FlowGraph) (source target : NodeId) :
    Eases graph (graph.removeEdge source target) := by
  refine of_sameCores (sameCores_removeEdge graph source target) fun id => ?_
  rw [successors_removeEdge]
  split
  · next here => exact here ▸ List.length_erase_le
  · exact Nat.le_refl _

theorem removeAllEdges (graph : FlowGraph) (source target : NodeId) :
    Eases graph (graph.removeAllEdges source target) :=
  removeAllEdges_induction (Eases graph) (.refl graph) fun _ ih => ih.trans (.removeEdge _ source target)

theorem clearSuccessors (graph : FlowGraph) (id : NodeId) : Eases graph (graph.clearSuccessors id) := by
  refine of_sameCores (sameCores_clearSuccessors graph id) fun other => ?_
  rw [successors_clearSuccessors]
  split
  · exact Nat.zero_le _
  · exact Nat.le_refl _

theorem dropSecondEdge (graph : FlowGraph) (id : NodeId) : Eases graph (graph.dropSecondEdge id) := by
  unfold FlowGraph.dropSecondEdge
  split
  · exact .removeEdge graph id _
  · exact .refl graph

theorem cutEdgesInto (graph : FlowGraph) (level : Option NodeId) (start stop : Nat) (target : NodeId) :
    Eases graph (graph.cutEdgesInto level start stop target) :=
  .foldl (fun graph source => .removeAllEdges graph source target) _ graph

theorem mapKind (graph : FlowGraph) (id : NodeId) {f : Kind → Kind}
    (room : ∀ limit, ((graph.node id).kind.room limit ≤ (f (graph.node id).kind).room limit)) :
    Eases graph (graph.mapKind id f) := by
  refine of_sameEdges (sameEdges_mapKind f) fun other limit => ?_
  rw [FlowGraph.mapKind, node_modify]
  split
  · next here => exact here.1 ▸ room limit
  · exact Nat.le_refl _

theorem movePredecessors (graph : FlowGraph) (old new : NodeId) :
    Eases graph (graph.movePredecessors old new) := by
  refine of_sameCores (sameCores_movePredecessors graph old new) fun id => ?_
  have same : ((graph.movePredecessors old new).node id).successors.map (fun _ => ()) =
      (graph.node id).successors.map fun _ => () :=
    map_successors_movePredecessors (fun _ => ()) rfl graph id
  have lengths := congrArg List.length same
  rw [List.length_map, List.length_map] at lengths
  exact Nat.le_of_eq lengths

theorem substitute (graph : FlowGraph) (old new : NodeId) : Eases graph (graph.substitute old new) := by
  have moves := movePredecessors graph old new
  unfold FlowGraph.substitute
  dsimp only
  split
  · exact moves.trans (.mapKind _ _ fun limit => Nat.le_of_eq (Kind.room_replaceChild _ _ _ limit).symm)
  · exact moves

theorem setParent (graph : FlowGraph) (id : NodeId) (parent : Option NodeId) :
    Eases graph (graph.setParent id parent) := by
  refine of_sameEdges (sameEdges_setParent parent) fun other limit => ?_
  rw [FlowGraph.setParent, node_modify]
  split <;> exact Nat.le_refl _

theorem absorb (graph : FlowGraph) (owner : NodeId) (level : Option NodeId) (start stop : Nat) :
    Eases graph (graph.absorb owner level start stop) := by
  refine of_sameEdges (sameEdges_absorb owner level start stop) fun id limit => ?_
  rw [node_absorb]
  split <;> exact Nat.le_refl _

/-- A block that loses an instruction other than a branch at its front ends as before. -/
theorem shiftInstruction
    (discards : ∀ first, (graph.node id).instructions.head? = some first → first.opcode = .popz) :
    Eases graph (graph.shiftInstruction id) := by
  refine of_sameEdges (sameEdges_mapInstructions _) fun other limit => ?_
  rw [FlowGraph.shiftInstruction, FlowGraph.mapInstructions, node_modify]
  split
  · next here =>
    obtain ⟨rfl, _⟩ := here
    cases isKind : (graph.node id).kind with
    | block parts =>
      simp only [Node.mapInstructions, isKind, Kind.room]
      simp only [Node.instructions, isKind] at discards
      exact Block.room_drop_one discards
    | _ => simp [Node.mapInstructions, isKind]
  · exact Nat.le_refl _

end Eases

/-! Blocks that lose a branch -/

def OnlyBlock (id : NodeId) (graph next : FlowGraph) : Prop :=
  ∀ other, (next.node other).kind = (graph.node other).kind ∨
    other = id ∧ (graph.node id).kind.isBlock = true ∧ (next.node id).kind.isBlock = true

namespace OnlyBlock

theorem mapInstructions (graph : FlowGraph) (id : NodeId) (f : List Instruction → List Instruction) :
    OnlyBlock id graph (graph.mapInstructions id f) := by
  intro other
  rw [FlowGraph.mapInstructions, node_modify]
  split
  · next here =>
    obtain ⟨rfl, bound⟩ := here
    rw [node_modify, if_pos ⟨rfl, bound⟩]
    cases isKind : (graph.node id).kind with
    | block parts => exact .inr ⟨rfl, rfl, by simp [Node.mapInstructions, isKind, Kind.isBlock]⟩
    | _ => exact .inl (by simp [Node.mapInstructions, isKind])
  · exact .inl rfl

theorem popIf (graph : FlowGraph) (id : NodeId) (opcode : Opcode) :
    OnlyBlock id graph (graph.popIf id opcode) := by
  unfold FlowGraph.popIf
  split
  · exact .mapInstructions graph id _
  · exact fun _ => .inl rfl

theorem sameCores (only : OnlyBlock id graph next) (same : SameCores next final) :
    OnlyBlock id graph final := by
  intro other
  rw [same.kind, same.kind]
  exact only other

theorem isBlock (only : OnlyBlock id graph next) (isBlock : (graph.node id).kind.isBlock = true) :
    (next.node id).kind.isBlock = true := by
  rcases only id with same | ⟨_, _, isBlock⟩
  · exact (congrArg Kind.isBlock same).trans isBlock
  · exact isBlock

end OnlyBlock

theorem Slim.onlyBlock (slim : graph.Slim limit) (only : OnlyBlock id graph next)
    (fewer : ∀ other, (next.node other).successors.length ≤ (graph.node other).successors.length)
    (few : (graph.node id).kind.isBlock = true → (next.node id).successors.length ≤ 1) : next.Slim limit := by
  intro other
  rcases only other with same | ⟨rfl, wasBlock, isBlock⟩
  · rw [same]
    exact Nat.le_trans (fewer other) (slim other)
  · exact Nat.le_trans (few wasBlock) (Kind.room_bounds isBlock _).1

theorem Slim.dropBranch (slim : graph.Slim limit) (id : NodeId) (opcode : Opcode) :
    (graph.dropBranch id opcode).Slim limit := by
  refine slim.onlyBlock ((OnlyBlock.popIf graph id opcode).sameCores (sameCores_clearSuccessors _ id))
    (fun other => ?_) fun _ => ?_
  · rw [successors_dropBranch]
    split
    · exact Nat.zero_le _
    · exact Nat.le_refl _
  · rw [successors_dropBranch, if_pos rfl]
    exact Nat.zero_le _

theorem room_dropBranch {limit : Nat} (room : 0 < (graph.node id).kind.room limit) (opcode : Opcode) :
    0 < ((graph.dropBranch id opcode).node id).kind.room limit := by
  rcases (OnlyBlock.popIf graph id opcode).sameCores (sameCores_clearSuccessors _ id) id with
    same | ⟨_, _, isBlock⟩
  · exact Nat.lt_of_lt_of_eq room (congrArg (Kind.room limit) same).symm
  · exact (Kind.room_bounds isBlock limit).1

theorem Slim.mapInstructions_clear (slim : graph.Slim limit) (id : NodeId)
    (f : List Instruction → List Instruction) :
    ((graph.mapInstructions id f).clearSuccessors id).Slim limit := by
  have same : SameEdges graph (graph.mapInstructions id f) := sameEdges_mapInstructions f
  refine slim.onlyBlock ((OnlyBlock.mapInstructions graph id f).sameCores
    (sameCores_clearSuccessors _ id)) (fun other => ?_) fun _ => ?_
  · rw [← same.successors]
    exact (Eases.clearSuccessors _ id).edges other
  · rw [successors_clearSuccessors, if_pos rfl]
    exact Nat.zero_le _

theorem length_dropSecondEdge (few : (graph.node id).successors.length ≤ 2) :
    ((graph.dropSecondEdge id).node id).successors.length ≤ 1 := by
  unfold dropSecondEdge
  split
  · next target found =>
    rw [successors_removeEdge, if_pos rfl, List.length_erase_of_mem (List.mem_of_getElem? found)]
    omega
  · next none =>
    rw [List.getElem?_eq_none_iff] at none
    exact none

theorem Slim.dropSecondEdge (slim : graph.Slim limit) (only : OnlyBlock id graph next)
    (same : SameEdges graph next) : (next.dropSecondEdge id).Slim limit := by
  refine slim.onlyBlock (only.sameCores (sameCores_dropSecondEdge next id)) (fun other => ?_)
    fun isBlock => length_dropSecondEdge ?_
  · rw [← same.successors]
    exact (Eases.dropSecondEdge next id).edges other
  · rw [same.successors]
    exact Nat.le_trans (slim id) (Kind.room_bounds isBlock _).2

/-! New nodes and edges -/

theorem Slim.addNode (slim : graph.Slim limit) (kind : Kind) (start stop : Nat) (parent : Option NodeId) :
    (graph.addNode kind start stop parent).Slim limit := by
  intro id
  rw [node_addNode]
  split
  · exact Nat.zero_le _
  · exact slim id

theorem length_addEdge (graph : FlowGraph) (source target other : NodeId) :
    ((graph.addEdge source target).node other).successors.length ≤
      (graph.node other).successors.length + if source = other then 1 else 0 := by
  by_cases bound : source < graph.size
  · rw [successors_addEdge bound]
    split
    · next here => simp [here]
    · exact Nat.le_refl _
  · rw [addEdge, successors_mapPredecessors, mapSuccessors, node_modify, if_neg]
    · exact Nat.le_add_right _ _
    · rintro ⟨rfl, inside⟩
      exact bound inside

theorem Slim.addEdge {target : NodeId} (slim : graph.Slim limit)
    (free : (graph.node source).successors.length < (graph.node source).kind.room (limit source)) :
    (graph.addEdge source target).Slim limit := by
  intro id
  rw [(sameCores_addEdge source target).kind]
  refine Nat.le_trans (length_addEdge graph source target id) ?_
  split
  · next here => exact here ▸ free
  · exact slim id

structure Idle (graph : FlowGraph) (id : NodeId) : Prop where
  edges : (graph.node id).successors = []
  room : ∀ limit, 0 < (graph.node id).kind.room limit

namespace Idle

theorem of_isBlock (isBlock : (graph.node id).kind.isBlock = true)
    (edges : (graph.node id).successors = []) : graph.Idle id :=
  ⟨edges, fun limit => (Kind.room_bounds isBlock limit).1⟩

theorem addNode (graph : FlowGraph) {kind : Kind} (room : ∀ limit, 0 < kind.room limit) (start stop : Nat)
    (parent : Option NodeId) : (graph.addNode kind start stop parent).Idle graph.size := by
  constructor
  · rw [node_addNode, if_pos rfl]
  · rw [node_addNode, if_pos rfl]
    exact room

theorem eases (idle : graph.Idle id) (eases : Eases graph next) : next.Idle id := by
  refine ⟨List.eq_nil_of_length_eq_zero (Nat.le_zero.mp ?_), fun limit => ?_⟩
  · exact Nat.le_trans (eases.edges id) (Nat.le_of_eq (congrArg List.length idle.edges))
  · exact Nat.lt_of_lt_of_le (idle.room limit) (eases.room id limit)

theorem later (idle : graph.Idle id) (bound : id < graph.size) (kind : Kind) (start stop : Nat)
    (parent : Option NodeId) : (graph.addNode kind start stop parent).Idle id := by
  constructor
  · rw [node_addNode, if_neg (Nat.ne_of_lt bound)]
    exact idle.edges
  · rw [node_addNode, if_neg (Nat.ne_of_lt bound)]
    exact idle.room

theorem addEdge_of_ne (idle : graph.Idle id) (apart : source ≠ id) (target : NodeId) :
    (graph.addEdge source target).Idle id := by
  refine ⟨(successors_addEdge_of_ne apart graph target).trans idle.edges, fun limit => ?_⟩
  rw [(sameCores_addEdge source target).kind]
  exact idle.room limit

theorem not_sentinel (idle : graph.Idle id) (which : Sentinel) : (graph.node id).kind ≠ .sentinel which := by
  intro same
  have room := idle.room 0
  rw [same] at room
  exact absurd room (Nat.lt_irrefl 0)

end Idle

theorem Slim.mono {more : NodeId → Nat} (slim : graph.Slim limit) (le : ∀ id, limit id ≤ more id) :
    graph.Slim more := by
  intro id
  refine Nat.le_trans (slim id) ?_
  cases (graph.node id).kind with
  | sentinel which => exact le id
  | _ => exact Nat.le_refl _

theorem Slim.addEdge_idle (slim : graph.Slim limit) (idle : graph.Idle source)
    (target : NodeId) : (graph.addEdge source target).Slim limit := by
  refine slim.addEdge ?_
  rw [idle.edges]
  exact idle.room _

theorem Slim.mapKind_idle (slim : graph.Slim limit) (idle : graph.Idle id) (f : Kind → Kind) :
    (graph.mapKind id f).Slim limit := by
  intro other
  rw [(sameEdges_mapKind f).successors, mapKind, node_modify]
  split
  · next here =>
    rw [← here.1, idle.edges]
    exact Nat.zero_le _
  · exact slim other

theorem Idle.mapKind (idle : graph.Idle id) {f : Kind → Kind} (room : ∀ kind limit, 0 < (f kind).room limit) :
    (graph.mapKind id f).Idle id := by
  refine ⟨((sameEdges_mapKind f).successors id).trans idle.edges, fun limit => ?_⟩
  rw [FlowGraph.mapKind, node_modify]
  split
  · exact room _ limit
  · exact idle.room limit

theorem Slim.replaceJump (slim : graph.Slim limit) (block : NodeId) (sentinel : Sentinel) :
    (graph.replaceJump block sentinel).1.Slim limit := by
  unfold FlowGraph.replaceJump
  split
  · exact slim
  · next jump last =>
    have cutSlim : ((graph.popInstruction block).clearSuccessors block).Slim limit :=
      slim.mapInstructions_clear block _
    have isBlock : (((graph.popInstruction block).clearSuccessors block).node block).kind.isBlock = true := by
      rw [(sameCores_clearSuccessors _ block).kind]
      exact (OnlyBlock.mapInstructions graph block _).isBlock (Node.isBlock_of_last? last)
    have idle : ((graph.popInstruction block).clearSuccessors block).Idle block := by
      refine .of_isBlock isBlock ?_
      rw [successors_clearSuccessors, if_pos rfl]
    dsimp only
    generalize (graph.popInstruction block).clearSuccessors block = cut at cutSlim isBlock idle
    split
    · exact cutSlim
    · have marked := cutSlim.addNode (.sentinel sentinel) jump.address jump.nextAddress (cut.node block).parent
      dsimp only
      split
      · exact marked.eases (.substitute _ _ _)
      · exact marked.addEdge_idle (idle.later (lt_size_of_isBlock isBlock) _ _ _ _) _

def Thins (graph next : FlowGraph) : Prop := ∀ limit, graph.Slim limit → next.Slim limit

namespace Thins

theorem refl (graph : FlowGraph) : Thins graph graph := fun _ slim => slim

theorem trans (first : Thins graph next) (second : Thins next final) : Thins graph final :=
  fun limit slim => second limit (first limit slim)

theorem eases (thins : Thins graph next) (eases : Eases next final) : Thins graph final :=
  fun limit slim => (thins limit slim).eases eases

theorem addEdge (thins : Thins graph next) (idle : next.Idle source) (target : NodeId) :
    Thins graph (next.addEdge source target) := fun limit slim =>
  (thins limit slim).addEdge_idle idle target

end Thins

end Structuring.FlowGraph
