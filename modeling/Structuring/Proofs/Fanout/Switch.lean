import Structuring.Proofs.Fanout.Room
import Structuring.Proofs.Levels
import Structuring.Proofs.Passes.Switch
import Structuring.Proofs.Returns

/-! Edges that leave the nodes of a switch.

Comparisons, labels and the switch itself lead to one node each. A break on the level of the switch is
led to the labels after it, whether or not it leads somewhere already, and is then inside the switch.
-/

namespace Structuring.Recovery

open Bytecode FlowGraph

variable {source : Source} {session : Session} {limit : NodeId → Nat} {switch id : NodeId}
  {location : SwitchLocation} {level exitLabel : Option NodeId} {placement : LabelPlacement}
  {heads : List (Nat × NodeId)}

/-! Comparisons and labels -/

section

variable {blocks aims : NodeId → Prop} {graph next : FlowGraph}

/-- Blocks have lost their edges when they are led to case jumps, and labels and jumps are led on once. -/
theorem CaseStep.slim (step : CaseStep switch blocks aims graph next) (slim : graph.Slim limit)
    (room : ∀ id, blocks id → 0 < (graph.node id).kind.room (limit id)) :
    next.Slim limit ∧ ∀ id, blocks id → 0 < (next.node id).kind.room (limit id) := by
  cases step with
  | @cut block listed opcode =>
    refine ⟨slim.dropBranch _ _, fun id member => ?_⟩
    by_cases here : block = id
    · subst here
      exact room_dropBranch (room block listed) opcode
    · rw [kind_dropBranch_of_ne here]
      exact room id member
  | make address isCase =>
    refine ⟨slim.addNode _ _ _ _, fun id member => ?_⟩
    rw [node_addNode]
    split
    · rcases isCase with rfl | ⟨_, rfl⟩ <;> exact Nat.one_pos
    · exact room id member
  | link leaves idle enters =>
    refine ⟨slim.addEdge ?_, fun id member => ?_⟩
    · rw [idle]
      rcases leaves with listed | isCase
      · exact room _ listed
      · rcases isCase.kind with isKind | ⟨_, isKind⟩ <;> rw [isKind] <;> exact Nat.one_pos
    · rw [(sameCores_addEdge _ _).kind]
      exact room id member
  | move aimed isCase =>
    refine ⟨slim.eases (.movePredecessors _ _ _), fun id member => ?_⟩
    rw [(sameCores_movePredecessors _ _ _).kind]
    exact room id member

theorem CaseSteps.slim (steps : CaseSteps switch blocks aims graph next) (slim : graph.Slim limit)
    (room : ∀ id, blocks id → 0 < (graph.node id).kind.room (limit id)) : next.Slim limit := by
  suffices next.Slim limit ∧ ∀ id, blocks id → 0 < (next.node id).kind.room (limit id) from this.1
  induction steps with
  | refl => exact ⟨slim, room⟩
  | tail _ step ih => exact step.slim ih.1 ih.2

structure Rests (graph : FlowGraph) (id : NodeId) : Prop where
  isSwitch : ∃ parts, (graph.node id).kind = .switch parts
  edges : (graph.node id).successors = []

theorem Rests.idle (rests : Rests graph id) : graph.Idle id := by
  obtain ⟨parts, isSwitch⟩ := rests.isSwitch
  exact ⟨rests.edges, fun _ => isSwitch ▸ Nat.one_pos⟩

theorem Rests.step (rests : Rests graph id) (outside : ¬blocks id)
    (step : CaseStep switch blocks aims graph next) : Rests next id := by
  obtain ⟨⟨parts, isSwitch⟩, edges⟩ := rests
  have bound : id < graph.size := Owner.lt (.of_kind isSwitch rfl)
  cases step with
  | @cut block listed opcode =>
    have apart : block ≠ id := by
      rintro rfl
      exact outside listed
    constructor
    · rw [kind_dropBranch_of_ne apart]
      exact ⟨parts, isSwitch⟩
    · rw [successors_dropBranch, if_neg apart, edges]
  | make address isCase =>
    constructor <;> rw [node_addNode, if_neg (Nat.ne_of_lt bound)]
    · exact ⟨parts, isSwitch⟩
    · exact edges
  | @link source _ leaves idle enters =>
    have apart : source ≠ id := by
      rintro rfl
      rcases leaves with listed | isCase
      · exact outside listed
      · simpa [isSwitch] using isCase.kind
    refine ⟨⟨parts, ?_⟩, ?_⟩
    · rw [(sameCores_addEdge _ _).kind, isSwitch]
    · rw [successors_addEdge_of_ne apart, edges]
  | move aimed isCase =>
    refine ⟨⟨parts, ?_⟩, ?_⟩
    · rw [(sameCores_movePredecessors _ _ _).kind, isSwitch]
    · rw [successors_movePredecessors_of_not_mem (by simp [edges]), edges]

theorem Rests.steps (rests : Rests graph id) (outside : ¬blocks id)
    (steps : CaseSteps switch blocks aims graph next) : Rests next id := by
  induction steps with
  | refl => exact rests
  | tail _ step ih => exact ih.step outside step

end

/-! Breaks and the exit -/

theorem sameCores_linkBreak (heads : List (Nat × NodeId)) (graph : FlowGraph) (breakNode : NodeId) :
    SameCores graph (linkBreak heads graph breakNode) := by
  unfold linkBreak
  split
  · exact sameCores_addEdge breakNode _
  · exact .refl graph

/-- Every time a sentinel is led to a label it needs room for one more edge. -/
theorem slim_linkBreaks (breaks : List NodeId) {graph : FlowGraph}
    (sentinels : ∀ id ∈ breaks, ∃ which, (graph.node id).kind = .sentinel which) (slim : graph.Slim limit) :
    (breaks.foldl (linkBreak heads) graph).Slim fun id => limit id + breaks.count id := by
  induction breaks generalizing graph limit with
  | nil => exact slim
  | cons first rest ih =>
    have cores := sameCores_linkBreak heads graph first
    have linked : (linkBreak heads graph first).Slim fun id => limit id + if first = id then 1 else 0 := by
      have wider : graph.Slim fun id => limit id + if first = id then 1 else 0 :=
        slim.mono fun id => Nat.le_add_right _ _
      unfold linkBreak
      split
      · refine wider.addEdge ?_
        obtain ⟨which, isSentinel⟩ := sentinels first (.head _)
        have before := slim first
        rw [isSentinel] at before ⊢
        simpa [Kind.room] using Nat.lt_succ_of_le before
      · exact wider
    have later := ih (fun id member => cores.kind id ▸ sentinels id (.tail _ member)) linked
    refine later.mono fun id => Nat.le_of_eq ?_
    rw [List.count_cons, Nat.add_assoc, Nat.add_comm (rest.count id)]
    simp only [beq_iff_eq]

/-- Steps that each lead one node elsewhere leave the other nodes alone. -/
theorem successors_foldl_of_not_mem {step : FlowGraph → NodeId → FlowGraph}
    (each : ∀ graph first, first ≠ id → ((step graph first).node id).successors = (graph.node id).successors)
    {items : List NodeId} (outside : id ∉ items) (graph : FlowGraph) :
    ((items.foldl step graph).node id).successors = (graph.node id).successors := by
  induction items generalizing graph with
  | nil => rfl
  | cons first rest ih =>
    rw [List.mem_cons, not_or] at outside
    rw [List.foldl_cons, ih outside.2, each graph first (Ne.symm outside.1)]

theorem successors_linkBreak_of_ne (graph : FlowGraph) (breakNode : NodeId) (apart : breakNode ≠ id) :
    ((linkBreak heads graph breakNode).node id).successors = (graph.node id).successors := by
  unfold linkBreak
  split
  · exact successors_addEdge_of_ne apart _ _
  · rfl

theorem idle_linkBreaks {breaks : List NodeId} {graph : FlowGraph}
    (apart : id ∉ breaks) (idle : graph.Idle id) : (breaks.foldl (linkBreak heads) graph).Idle id := by
  constructor
  · rw [successors_foldl_of_not_mem successors_linkBreak_of_ne apart, idle.edges]
  · rw [(SameCores.foldl _ (sameCores_linkBreak heads) breaks graph).kind]
    exact idle.room

def leadOff (exitLabel : Option NodeId) (exit : NodeId) (graph : FlowGraph) (id : NodeId) : FlowGraph :=
  match exitLabel with
  | some label => (graph.removeEdge id exit).addEdge id label
  | none => graph.removeEdge id exit

theorem detachExit_eq (graph : FlowGraph) (level : Option NodeId) (location : SwitchLocation)
    (exitLabel : Option NodeId) (exit : NodeId) :
    detachExit graph level location exitLabel exit =
      ((graph.node exit).predecessors.filter fun id => (graph.node id).parent == level
        && location.contains (graph.node id).start).foldl (leadOff exitLabel exit) graph := rfl

theorem sameCores_leadOff (exitLabel : Option NodeId) (exit : NodeId) (graph : FlowGraph) (id : NodeId) :
    SameCores graph (leadOff exitLabel exit graph id) := by
  unfold leadOff
  split
  · exact (sameCores_removeEdge graph id exit).trans (sameCores_addEdge id _)
  · exact sameCores_removeEdge graph id exit

theorem successors_leadOff_of_ne {exit : NodeId} (graph : FlowGraph) (source : NodeId) (apart : source ≠ id) :
    ((leadOff exitLabel exit graph source).node id).successors = (graph.node id).successors := by
  unfold leadOff
  split
  · rw [successors_addEdge_of_ne apart, successors_removeEdge, if_neg apart]
  · rw [successors_removeEdge, if_neg apart]

def Owes (exit : NodeId) (pending : List NodeId) (graph : FlowGraph) : Prop :=
  ∀ id, pending.count id ≤ (graph.node id).successors.count exit

theorem leadOff_step {exit first : NodeId} {rest : List NodeId}
    {graph : FlowGraph} (slim : graph.Slim limit) (owes : Owes exit (first :: rest) graph) :
    (leadOff exitLabel exit graph first).Slim limit ∧ Owes exit rest (leadOff exitLabel exit graph first) ∧
      ∀ id, graph.Idle id → (leadOff exitLabel exit graph first).Idle id := by
  have edge : exit ∈ (graph.node first).successors := by
    rw [← List.count_pos_iff]
    exact Nat.lt_of_lt_of_le (by simp) (owes first)
  have cut : Eases graph (graph.removeEdge first exit) := .removeEdge graph first exit
  have cutSlim := slim.eases cut
  have cutOwes : Owes exit rest (graph.removeEdge first exit) := by
    intro id
    have before := owes id
    rw [successors_removeEdge]
    split
    · next here =>
      subst here
      rw [List.count_cons_self] at before
      rw [List.count_erase_self]
      omega
    · next apart => rwa [List.count_cons_of_ne apart] at before
  have rests (id : NodeId) (idle : graph.Idle id) : first ≠ id := by
    rintro rfl
    rw [idle.edges] at edge
    cases edge
  unfold leadOff
  split
  · next label =>
    refine ⟨cutSlim.addEdge ?_, fun id => ?_, fun id idle => (idle.eases cut).addEdge_of_ne (rests id idle) _⟩
    · rw [successors_removeEdge, if_pos rfl, List.length_erase_of_mem edge,
        (sameCores_removeEdge graph first exit).kind]
      have some := List.length_pos_of_mem edge
      have room := slim first
      omega
    · refine Nat.le_trans (cutOwes id) ?_
      have bound : first < (graph.removeEdge first exit).size := by
        rw [(sameCores_removeEdge graph first exit).size]
        exact lt_size_of_mem_successors edge
      rw [successors_addEdge bound]
      split
      · next here => rw [here, List.count_append]; exact Nat.le_add_right _ _
      · exact Nat.le_refl _
  · exact ⟨cutSlim, cutOwes, fun id idle => idle.eases cut⟩

theorem leadOff_run {exit : NodeId} (pending : List NodeId)
    {graph : FlowGraph} (slim : graph.Slim limit) (owes : Owes exit pending graph) :
    (pending.foldl (leadOff exitLabel exit) graph).Slim limit ∧
      ∀ id, graph.Idle id → (pending.foldl (leadOff exitLabel exit) graph).Idle id := by
  induction pending generalizing graph with
  | nil => exact ⟨slim, fun _ => id⟩
  | cons first rest ih =>
    obtain ⟨slim, owes, rests⟩ := leadOff_step slim owes
    obtain ⟨slim, more⟩ := ih slim owes
    exact ⟨slim, fun id idle => more id (rests id idle)⟩

theorem slim_detachExit {graph : FlowGraph} (agree : graph.Mutual) (slim : graph.Slim limit)
    (level : Option NodeId) (location : SwitchLocation) (exitLabel : Option NodeId) (exit : NodeId) :
    (detachExit graph level location exitLabel exit).Slim limit ∧
      ∀ id, graph.Idle id → (detachExit graph level location exitLabel exit).Idle id := by
  rw [detachExit_eq]
  refine leadOff_run _ slim fun id => ?_
  rw [agree id exit]
  exact List.filter_sublist.count_le id

theorem eases_dropDiscard (graph : FlowGraph) (block : NodeId) : Eases graph (dropDiscard graph block) := by
  rcases dropDiscard_or graph block with same | ⟨discards, same⟩ <;> rw [same]
  · exact .refl graph
  · exact .shiftInstruction discards

theorem keeps_dropDiscard (graph : FlowGraph) (block : NodeId) : Keeps graph (dropDiscard graph block) ∧
    SameEdges graph (dropDiscard graph block) ∧ (dropDiscard graph block).size = graph.size := by
  rcases dropDiscard_or graph block with same | ⟨_, same⟩ <;> rw [same]
  · exact ⟨.refl graph, ⟨fun _ => rfl, fun _ => rfl⟩, rfl⟩
  · exact ⟨.mapInstructions graph block _, sameEdges_mapInstructions _, size_mapInstructions _⟩

theorem mem_breaksWithin {graph : FlowGraph} (member : id ∈ breaksWithin graph level location) :
    id < graph.size ∧ (graph.node id).kind = .sentinel .breaks ∧ (graph.node id).parent = level ∧
      (graph.node id).startsWithin location.start location.stop = true := by
  obtain ⟨inside, fits⟩ := List.mem_filter.mp member
  simp only [Bool.and_eq_true, beq_iff_eq] at fits
  exact ⟨List.mem_range.mp inside, fits.1.1, fits.1.2, fits.2⟩

def parentIn (graph : FlowGraph) (location : SwitchLocation) (level : Option NodeId)
    (switch id : NodeId) : Option NodeId :=
  if id ≠ switch ∧ (graph.node id).parent = level ∧
      (graph.node id).startsWithin location.start location.stop then some switch
  else (graph.node id).parent

section

variable {cases : NodeId} {exit : Option NodeId} {graph : FlowGraph}

/-- Breaks that are led to labels need room for that, and the switch still leads nowhere. -/
theorem slim_gather (sound : graph.Sound) (known : placement.Known graph) (idle : graph.Idle switch)
    (slim : graph.Slim limit) :
    (gather location level exit placement graph).Slim
        (fun id => limit id + (breaksWithin graph level location).count id) ∧
      (gather location level exit placement graph).Idle switch := by
  unfold gather
  extract_lets linked
  have linkedSlim : linked.Slim _ :=
    slim_linkBreaks _ (fun id member => ⟨_, (mem_breaksWithin member).2.1⟩) slim
  have linkedIdle : linked.Idle switch :=
    idle_linkBreaks (fun member => idle.not_sentinel .breaks (mem_breaksWithin member).2.1) idle
  have edits : GraphEdits Rights.none graph linked :=
    edits_linkBreaks known.heads fun id member => (mem_breaksWithin member).1
  split
  · obtain ⟨slim, rests⟩ := slim_detachExit (edits.maintains.sound sound).edges linkedSlim level location _ _
    exact ⟨slim, rests switch linkedIdle⟩
  · exact ⟨linkedSlim, linkedIdle⟩

theorem slim_seat (idle : graph.Idle switch) (slim : graph.Slim limit) :
    (seat location cases switch exit placement graph).Slim limit := by
  have discards := eases_dropDiscard graph location.endBlock
  unfold seat
  extract_lets moved
  have movedSlim : moved.Slim limit :=
    ((slim.eases discards).mapKind_idle (idle.eases discards) _).eases (.substitute _ _ _)
  have movedIdle : moved.Idle switch := by
    refine Idle.eases ?_ (.substitute _ _ _)
    exact (idle.eases discards).mapKind fun _ _ => Nat.one_pos
  split
  · exact movedSlim.addEdge_idle movedIdle _
  · exact movedSlim

theorem sameCores_gather : SameCores graph (gather location level exit placement graph) := by
  unfold gather
  extract_lets linked
  have linked : SameCores graph linked := .foldl _ (sameCores_linkBreak _) _ _
  split
  · rw [detachExit_eq]
    exact linked.trans (.foldl _ (sameCores_leadOff _ _) _ _)
  · exact linked

theorem successors_gather (inside : (graph.node id).parent = some switch) (apart : level ≠ some switch) :
    ((gather location level exit placement graph).node id).successors = (graph.node id).successors := by
  unfold gather
  extract_lets linked
  have same : (linked.node id).successors = (graph.node id).successors :=
    successors_foldl_of_not_mem successors_linkBreak_of_ne
      (fun member => apart ((mem_breaksWithin member).2.2.1.symm.trans inside)) graph
  have cores : SameCores graph linked := .foldl _ (sameCores_linkBreak _) _ _
  split
  · rw [detachExit_eq, successors_foldl_of_not_mem successors_leadOff_of_ne, same]
    intro member
    have onLevel := (List.mem_filter.mp member).2
    rw [cores.parent, inside] at onLevel
    simp only [Bool.and_eq_true, beq_iff_eq] at onLevel
    exact apart onLevel.1.symm
  · exact same

theorem keeps_seat : Keeps graph (seat location cases switch exit placement graph) ∧
    (seat location cases switch exit placement graph).size = graph.size := by
  obtain ⟨discarded, _, size⟩ := keeps_dropDiscard graph location.endBlock
  unfold seat
  extract_lets moved
  have toMoved : Keeps graph moved := (discarded.trans (.mapKind _ _ _)).trans (.substitute _ _ _)
  have movedSize : moved.size = graph.size := by rw [size_substitute, size_mapKind, size]
  split
  · exact ⟨toMoved.trans (.addEdge _ _ _), (size_addEdge ..).trans movedSize⟩
  · exact ⟨toMoved, movedSize⟩

theorem kind_seat (bound : switch < graph.size) (casesBound : cases < graph.size)
    (outside : (graph.node cases).parent ≠ some switch) :
    ((seat location cases switch exit placement graph).node switch).kind = .switch (placement.toSwitch cases) := by
  have discarded := (keeps_dropDiscard graph location.endBlock).1
  unfold seat
  extract_lets moved
  have isKind : (moved.node switch).kind = .switch (placement.toSwitch cases) := by
    rw [kind_substitute_of_ne, mapKind, node_modify, if_pos ⟨rfl, discarded.lt bound⟩]
    rwa [parent_mapKind, discarded.parent cases casesBound]
  split
  · rw [(sameCores_addEdge _ _).kind, isKind]
  · exact isKind

theorem successors_seat (apart : switch ≠ id) :
    ((seat location cases switch exit placement graph).node id).successors = (graph.node id).successors ∨
      switch ∈ ((seat location cases switch exit placement graph).node id).successors := by
  have edges := (keeps_dropDiscard graph location.endBlock).2.1
  unfold seat
  extract_lets moved
  have leads : (moved.node id).successors = (graph.node id).successors ∨ switch ∈ (moved.node id).successors := by
    refine (successors_substitute_or _ id).imp_left fun same => same.trans ?_
    rw [(sameEdges_mapKind _).successors, edges.successors]
  split
  · rwa [successors_addEdge_of_ne apart]
  · exact leads

end

structure Closes (location : SwitchLocation) (level : Option NodeId) (cases switch : NodeId)
    (placement : LabelPlacement) (graph next : FlowGraph) : Prop where
  size : next.size = graph.size
  parents : ∀ id < graph.size, (next.node id).parent = parentIn graph location level switch id
  isSwitch : (graph.node cases).parent ≠ some switch →
    (next.node switch).kind = .switch (placement.toSwitch cases)
  successors : ∀ id < graph.size, (graph.node id).parent = some switch →
    (next.node id).successors = (graph.node id).successors

/-- What is inside a switch that closes leads where it did: otherwise it would lead out. -/
theorem closes_of_shut {cases : NodeId} {exit : Option NodeId} {graph next : FlowGraph} (bound : switch < graph.size)
    (casesBound : cases < graph.size) (onLevel : (graph.node switch).parent = level) (apart : level ≠ some switch)
    (closed : next = (seat location cases switch exit placement (gather location level exit placement graph)).absorb
      switch level location.start location.stop)
    (shut : next.leak? switch = none) : Closes location level cases switch placement graph next := by
  have cores : SameCores graph (gather location level exit placement graph) := sameCores_gather
  obtain ⟨keeps, size⟩ : Keeps _ (seat location cases switch exit placement _) ∧ _ := keeps_seat
  have keeps := (Keeps.of_sameCores cores).trans keeps
  have parents (id : NodeId) (inside : id < graph.size) :
      (next.node id).parent = parentIn graph location level switch id := by
    rw [closed, node_absorb, parentIn, Node.startsWithin, Node.startsWithin, keeps.start id inside,
      keeps.parent id inside]
    split
    · next taken => rw [if_pos taken.2]
    · next other => rw [if_neg fun taken => other ⟨keeps.lt inside, taken⟩, keeps.parent id inside]
  refine ⟨by rw [closed, size_absorb, size, cores.size], parents, fun outside => ?_, fun id inside child => ?_⟩
  · rw [closed, node_absorb, if_neg fun taken => taken.2.1 rfl]
    exact kind_seat (cores.size ▸ bound) (cores.size ▸ casesBound) (cores.parent cases ▸ outside)
  · have isOther : switch ≠ id := by
      rintro rfl
      exact apart (onLevel.symm.trans child)
    have edges : SameEdges _ next := closed ▸ sameEdges_absorb _ _ _ _
    rw [edges.successors]
    rcases successors_seat isOther with same | leak
    · rw [same, successors_gather child apart]
    · have stays : parentIn graph location level switch id = some switch := by
        rw [parentIn]
        split
        · rfl
        · exact child
      rw [← edges.successors] at leak
      have outside := parent_eq_of_leak? shut ((parents id inside).trans stays) leak
      rw [parents switch bound, parentIn, if_neg fun taken => taken.1 rfl, onLevel] at outside
      exact absurd outside apart

structure Inserted (location : SwitchLocation) (limit : NodeId → Nat) (graph next : FlowGraph)
    (breaks : List NodeId) (switch : NodeId) : Prop where
  slim : next.Slim fun id => limit id + breaks.count id
  distinct : breaks.Nodup
  fresh : graph.size ≤ switch
  isSwitch : ∃ parts, (next.node switch).kind = .switch parts
  start : (next.node switch).start = location.start
  level : (next.node switch).parent = (graph.node location.jumpBlock).parent
  compares : ∀ block ∈ location.compareBlocks,
    (graph.node block).parent = (graph.node location.jumpBlock).parent
  isBreak : ∀ id ∈ breaks, (next.node id).kind = .sentinel .breaks
  inside : ∀ id ∈ breaks, (next.node id).parent = some switch
  stays : ∀ id < graph.size, (graph.node id).kind ≠ .sentinel .empty →
    (next.node id).parent = (graph.node id).parent ∨
      (next.node id).parent = some switch ∧
        (graph.node id).parent = (graph.node location.jumpBlock).parent ∧
        location.start ≤ (graph.node id).start
  taken : ∀ id < graph.size, (graph.node id).kind = .sentinel .breaks →
    (next.node id).parent = some switch → id ∈ breaks

def Inserts (location : SwitchLocation) (limit : NodeId → Nat) (graph next : FlowGraph) : Prop :=
  ∃ breaks switch, Inserted location limit graph next breaks switch

theorem Inserted.of_closed {placed closed : Session} {parts : Switch}
    (sound : session.Sound) (fresh : session.graph.size ≤ switch)
    (isLevel : level = (session.graph.node location.jumpBlock).parent)
    (compares : ∀ block ∈ location.compareBlocks, (session.graph.node block).parent = level)
    (isSwitch : (placed.graph.node switch).kind = .switch parts)
    (start : (placed.graph.node switch).start = location.start)
    (onLevel : (placed.graph.node switch).parent = level)
    (toPlaced : Edits Rights.full.settled.staying session placed)
    (toClosed : Edits Rights.full.settled placed closed)
    (slim : closed.graph.Slim fun id =>
      limit id + (breaksWithin placed.graph level location).count id)
    (parents : ∀ id < placed.graph.size, (closed.graph.node id).parent =
      parentIn placed.graph location level switch id) :
    Inserted location limit session.graph closed.graph (breaksWithin placed.graph level location) switch where
  slim := slim
  distinct := List.nodup_range.filter _
  fresh := fresh
  isSwitch := by
    have owner : placed.graph.Owner switch := .of_kind isSwitch rfl
    have becomes := (toClosed.grows.nodes switch owner.lt).kind
    rw [isSwitch] at becomes
    exact becomes.switch_iff.mpr ⟨_, rfl⟩
  start := by
    have owner : placed.graph.Owner switch := .of_kind isSwitch rfl
    exact (toClosed.grows.nodes switch owner.lt).start.trans start
  level := by
    have owner : placed.graph.Owner switch := .of_kind isSwitch rfl
    rw [parents switch owner.lt, parentIn, if_neg fun taken => taken.1 rfl, onLevel, isLevel]
  compares block member := (compares block member).trans isLevel
  isBreak id member := toClosed.sentinel (mem_breaksWithin member).2.1 (mem_breaksWithin member).1
  inside id member := by
    obtain ⟨bound, isBreak, breakLevel, starts⟩ := mem_breaksWithin member
    have apart : id ≠ switch := by
      rintro rfl
      exact absurd (isSwitch.symm.trans isBreak) (by simp)
    rw [parents id bound, parentIn, if_pos ⟨apart, breakLevel, starts⟩]
  stays id bound proper := by
    have before := toPlaced.parent_eq False.elim bound proper False.elim
    rw [parents id (toPlaced.lt bound), parentIn]
    split
    · next taken =>
      refine .inr ⟨rfl, ?_, ?_⟩
      · rw [← before, taken.2.1, isLevel]
      · have starts := taken.2.2
        rw [Node.startsWithin, (toPlaced.grows.nodes id bound).start] at starts
        simp only [Bool.and_eq_true, decide_eq_true_eq] at starts
        exact starts.1
    · exact .inl before
  taken id bound isBreak moved := by
    have before := toPlaced.parent_eq False.elim bound (by simp [isBreak]) False.elim
    rw [parents id (toPlaced.lt bound), parentIn] at moved
    split at moved
    · next taken =>
      apply List.mem_filter.mpr
      refine ⟨List.mem_range.mpr (toPlaced.lt bound), ?_⟩
      simp only [Bool.and_eq_true, beq_iff_eq]
      exact ⟨⟨toPlaced.sentinel isBreak bound, taken.2.1⟩, taken.2.2⟩
    · rw [before] at moved
      exact absurd (sound.graph.parents id switch moved).lt (Nat.not_lt_of_le fresh)

theorem Insertion.Follows.inserts {insertion : Insertion}
    (follows : insertion.Follows Rights.full.settled location session) (sound : session.Sound)
    (known : ∀ id ∈ location.nodes, id < session.graph.size) (slim : session.graph.Slim limit) :
    Inserts location limit session.graph insertion.closed.graph := by
  have madeSlim : insertion.made.Slim limit := follows.made ▸ slim.addNode _ _ _ _
  have inside (id : NodeId) (member : id ∈ location.nodes) : id ≠ insertion.switch :=
    follows.isNew ▸ Nat.ne_of_lt (known id member)
  have isNode : insertion.made.node insertion.switch = ⟨location.start, location.stop, [], [], insertion.level,
      .switch ⟨insertion.cases, none, none⟩⟩ := by rw [follows.made, node_addNode, if_pos follows.isNew]
  have jumpedSlim := follows.dispatched.steps.slim madeSlim fun compare member => by
    obtain ⟨following, pair⟩ := follows.dispatched.taken compare member
    have room := madeSlim compare
    rw [pair] at room
    exact Nat.lt_of_lt_of_le Nat.two_pos room
  have placedSlim := follows.steps.slim (follows.dropped ▸ jumpedSlim.dropBranch _ _) fun _ => False.elim
  have rests : Rests insertion.made insertion.switch := ⟨⟨_, congrArg Node.kind isNode⟩, congrArg Node.successors isNode⟩
  have rests := rests.steps (fun member => inside _ (by simp [SwitchLocation.nodes, member]) rfl)
    follows.dispatched.steps
  have cut : CaseStep insertion.switch (location.jumpBlock = ·) (fun _ => False) insertion.jumped insertion.dropped :=
    follows.dropped ▸ .cut rfl .b
  have rests := (rests.step (inside _ (by simp [SwitchLocation.nodes])) cut).steps id follows.steps
  have casesBound := sound.graph.climb_lt (known _ (by simp [SwitchLocation.nodes])) follows.isCases
  have onLevel : (insertion.placed.graph.node insertion.switch).parent = insertion.level :=
    (congrArg Node.parent follows.core :)
  have isSwitch : (insertion.placed.graph.node insertion.switch).kind = _ := (congrArg Node.kind follows.core :)
  have apart : insertion.level ≠ some insertion.switch := fun same => by
    have owner := sound.graph.parents location.jumpBlock insertion.switch (follows.isLevel.trans same)
    exact Nat.ne_of_lt owner.lt follows.isNew
  obtain ⟨slim, idle⟩ := slim_gather follows.sound.graph follows.placed.known rests.idle placedSlim
  have slim : insertion.closed.graph.Slim _ := follows.closed ▸ (slim_seat idle slim).eases (.absorb _ _ _ _ _)
  have closes := closes_of_shut (Owner.lt (.of_kind isSwitch rfl)) (follows.toPlaced.lt casesBound) onLevel apart
    follows.closed follows.shut
  exact ⟨_, insertion.switch, .of_closed sound (Nat.le_of_eq follows.isNew.symm) follows.isLevel.symm
    follows.together isSwitch (congrArg Node.start follows.core :) onLevel follows.toPlaced follows.toClosed slim
    closes.parents⟩

theorem slim_insertSwitch (sound : session.Sound) (known : ∀ id ∈ location.nodes, id < session.graph.size)
    (slim : session.graph.Slim limit) :
    Returns (insertSwitch source location) session fun _ next =>
      Inserts location limit session.graph next.graph := by
  have inserts : Revises Rights.full.settled (insertSwitch source location) session _ :=
    revises_insertSwitch trivial known
  refine .imp (.of_revises inserts sound) ?_
  rintro _ next ⟨_, _, _, insertion, follows, same⟩
  exact same ▸ follows.inserts sound known slim

end Structuring.Recovery
