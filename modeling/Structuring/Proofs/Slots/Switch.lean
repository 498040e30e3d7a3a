import Structuring.Proofs.Slots.Conditional

/-! What switches and initializers hold in their slots.

The jumps and labels of a switch are made inside it. Until the switch has taken in what it covers, its
own level and the one around it count as one.
-/

namespace Structuring.Recovery

open Bytecode FlowGraph

variable {source : Source} {session : Session} {switch node cases guard : NodeId} {level exit : Option NodeId}
  {location : SwitchLocation} {every : Prop} {view : Option NodeId → Option NodeId} {graph next : FlowGraph}
  {destinations : List Destination} {placement : LabelPlacement}

theorem onLevel_of_inside (inside : (graph.node node).parent = some switch) :
    graph.OnLevel (merged switch level) level node :=
  ⟨lt_size_of_parent inside, (congrArg _ inside).trans (merged_owner switch level)⟩

theorem range_mapKind {id : NodeId} (f : Kind → Kind) (other : NodeId) :
    ((graph.mapKind id f).node other).range = (graph.node other).range :=
  field_modify Node.range (fun node => { node with kind := f node.kind }) (fun _ => rfl) other

theorem onLevel_mapKind {owner : NodeId} (f : Kind → Kind)
    (onLevel : graph.OnLevel id level node) : (graph.mapKind owner f).OnLevel id level node :=
  ⟨(size_mapKind f).symm ▸ onLevel.bound, (parent_mapKind f node).trans onLevel.level⟩

theorem range_of_tends (tends : Tends view graph next) (bound : node < graph.size) :
    (next.node node).range = (graph.node node).range := by
  have becomes := tends.grows.nodes node bound
  rw [Node.range, becomes.start, becomes.stop]
  rfl

/-! Comparisons and labels -/

section

variable {blocks aims : NodeId → Prop} (owner : graph.Owner switch)
  (listed : ∀ id, blocks id → graph.OnLevel (merged switch level) level id)
  (aimed : ∀ id, aims id → graph.OnLevel (merged switch level) level id)

include owner listed aimed

theorem CaseStep.tends (step : CaseStep switch blocks aims graph next) :
    Tends (merged switch level) graph next := by
  cases step with
  | cut isBlock opcode => exact (Clips.dropBranch _ _ _ : Clips .full _ _).tends _
  | make address isCase =>
    have isLevel : graph.IsLevel (some switch) := by
      rintro _ ⟨⟩
      exact owner
    rcases isCase with rfl | ⟨_, rfl⟩ <;> exact .addNode _ rfl rfl isLevel
  | link leaves idle enters =>
    exact .addEdge (leaves.elim (listed _) fun isCase => onLevel_of_inside isCase.inside)
      (enters.elim (aimed _) fun isCase => onLevel_of_inside isCase.inside)
  | move isAim isCase => exact .movePredecessors (aimed _ isAim) (onLevel_of_inside isCase.inside)

theorem CaseSteps.tends (steps : CaseSteps switch blocks aims graph next) :
    Tends (merged switch level) graph next := by
  induction steps with
  | refl => exact .refl graph
  | tail _ step ih =>
    exact ih.trans (step.tends (ih.grows.owner owner) (fun id member => ih.onLevel (listed id member))
      fun id isAim => ih.onLevel (aimed id isAim))

end

structure LabelPlacement.Within (switch : NodeId) (graph : FlowGraph) (placement : LabelPlacement) :
    Prop where
  heads : ∀ head ∈ placement.heads, (graph.node head.2).parent = some switch
  body : ∀ label, placement.body = some label → (graph.node label).parent = some switch
  exitLabels : ∀ pair, placement.exitLabels = some pair →
    (graph.node pair.1).parent = some switch ∧ (graph.node pair.2).parent = some switch

theorem inside_of_tends (tends : Tends view graph next)
    (inside : (graph.node node).parent = some switch) : (next.node node).parent = some switch :=
  (tends.refills.parent node (lt_size_of_parent inside)).trans inside

theorem LabelPlacement.Within.later (known : placement.Within switch graph)
    (tends : Tends view graph next) : placement.Within switch next := by
  constructor
  · exact fun head member => inside_of_tends tends (known.heads head member)
  · exact fun label same => inside_of_tends tends (known.body label same)
  · intro pair same
    obtain ⟨first, last⟩ := known.exitLabels pair same
    exact ⟨inside_of_tends tends first, inside_of_tends tends last⟩

theorem LabelPlacement.Placed.within {base : FlowGraph} {groups : List (Destination × List NodeId)}
    (placed : placement.Placed base switch location groups graph) : placement.Within switch graph := by
  constructor
  · exact fun head member => (placed.isCase (placed.heads head member)).inside
  · exact fun label same => (placed.isCase (placed.mem_body same)).inside
  · intro pair same
    obtain ⟨first, last⟩ := placed.mem_exits same
    exact ⟨(placed.isCase first).inside, (placed.isCase last).inside⟩

/-! The exit -/

theorem tends_linkBreaks {heads : List (Nat × NodeId)}
    (known : ∀ head ∈ heads, (graph.node head.2).parent = some switch) :
    Tends (merged switch level) graph ((breaksWithin graph level location).foldl (linkBreak heads) graph) := by
  refine .foldl fun breakNode member next toNext => ?_
  obtain ⟨among, fits⟩ := List.mem_filter.mp member
  simp only [Bool.and_eq_true, beq_iff_eq] at fits
  have isBreak : graph.OnLevel (merged switch level) level breakNode :=
    ⟨List.mem_range.mp among, (congrArg _ fits.1.2).trans (merged_level switch level)⟩
  unfold linkBreak
  split
  · next head found =>
    have inside := inside_of_tends toNext (known head (List.mem_of_find?_eq_some found))
    exact .addEdge (toNext.onLevel isBreak) (onLevel_of_inside inside)
  · exact .refl next

theorem tends_detachExit {exitLabel : Option NodeId} {exit : NodeId} (agree : graph.Mutual)
    (known : ∀ label, exitLabel = some label → (graph.node label).parent = some switch) :
    Tends (merged switch level) graph (detachExit graph level location exitLabel exit) := by
  refine .foldl fun id member next toNext => ?_
  obtain ⟨among, fits⟩ := List.mem_filter.mp member
  simp only [Bool.and_eq_true, beq_iff_eq] at fits
  have isSource : graph.OnLevel (merged switch level) level id :=
    ⟨agree.source_lt among, (congrArg _ fits.1).trans (merged_level switch level)⟩
  have cut : Tends (merged switch level) next (next.removeEdge id exit) :=
    .of_clip (.cut id exit : Clip .full _ _)
  dsimp only
  split
  · next label =>
    have toCut := toNext.trans cut
    exact cut.trans (.addEdge (toCut.onLevel isSource)
      (onLevel_of_inside (inside_of_tends toCut (known label rfl))))
  · exact cut

theorem rising_fillSwitch {parts : Switch} (rising : graph.Rising every switch level)
    (isKind : ∃ before, (graph.node switch).kind = .switch before)
    (isCases : graph.OnLevel id level parts.cases) (apart : parts.cases ≠ switch)
    (body : ∀ label, parts.body = some label → (graph.node label).parent = some switch)
    (endCases : ∀ label, parts.endCases = some label → (graph.node label).parent = some switch) :
    (graph.mapKind switch fun _ => .switch parts).Rising every switch level := by
  obtain ⟨before, isKind⟩ := isKind
  have made {label : NodeId} (inside : (graph.node label).parent = some switch) : label ≠ switch := by
    rintro rfl
    exact rising.level_ne (rising.placed.symm.trans inside)
  apply rising.fill rfl (isKind ▸ .switch)
  · intro ref member
    simp only [Kind.references, List.mem_cons, List.mem_append, Option.mem_toList] at member
    rcases member with rfl | isBody | isEnd
    · exact isCases.bound
    · exact lt_size_of_parent (body ref isBody)
    · exact lt_size_of_parent (endCases ref isEnd)
  · intro slot ref member
    simp only [Kind.slots, List.mem_cons, List.mem_append, List.mem_map, Option.mem_toList,
      Prod.mk.injEq] at member
    rcases member with ⟨rfl, rfl⟩ | ⟨_, isBody, rfl, rfl⟩ | ⟨_, isEnd, rfl, rfl⟩
    · exact ⟨by simp, by simp, apart, .beside isCases.level (.inl rfl)⟩
    · exact ⟨by simp, by simp, made (body _ isBody), .made (body _ isBody)⟩
    · exact ⟨by simp, by simp, made (endCases _ isEnd), .made (endCases _ isEnd)⟩

theorem tends_gather (sound : graph.Sound) (known : placement.Within switch graph) :
    Tends (merged switch level) graph (gather location level exit placement graph) := by
  have linked : Tends (merged switch level) graph
    ((breaksWithin graph level location).foldl (linkBreak placement.heads) graph) := tends_linkBreaks known.heads
  unfold gather
  split
  · refine linked.trans (tends_detachExit (linked.sound sound).edges fun label same => inside_of_tends linked ?_)
    obtain ⟨pair, isPair, rfl⟩ := Option.map_eq_some_iff.mp same
    exact (known.exitLabels pair isPair).1
  · exact linked

theorem rising_seat (rising : graph.Rising every switch level) (gains : Gains base graph switch)
    (isKind : ∃ parts, (graph.node switch).kind = .switch parts)
    (isCases : graph.OnLevel id level cases) (apart : cases ≠ switch)
    (isExit : ∀ node, exit = some node → graph.OnLevel id level node) (known : placement.Within switch graph) :
    (seat location cases switch exit placement graph).Rising every switch level ∧
      Gains base (seat location cases switch exit placement graph) switch ∧
      ((seat location cases switch exit placement graph).node switch).range = (graph.node switch).range := by
  have discards : Tends (merged switch level) graph (dropDiscard graph location.endBlock) :=
    (Clips.dropDiscard _ _ : Clips .full _ _).tends _
  have bound := rising.structured.owner.lt
  have stillSwitch : ∃ parts, ((dropDiscard graph location.endBlock).node switch).kind = .switch parts := by
    obtain ⟨parts, isKind⟩ := isKind
    exact (discards.grows.nodes switch bound).kind.switch_iff.mpr ⟨_, isKind⟩
  have known := known.later discards
  obtain ⟨filled, isFilled⟩ : ∃ filled, (dropDiscard graph location.endBlock).mapKind switch
    (fun _ => .switch (placement.toSwitch cases)) = filled := ⟨_, rfl⟩
  have risingFilled : filled.Rising every switch level := by
    rw [← isFilled]
    refine rising_fillSwitch (rising.tends discards) stillSwitch (onLevel_of_tends discards isCases) apart known.body
      fun label same => ?_
    obtain ⟨pair, isPair, rfl⟩ := Option.map_eq_some_iff.mp same
    exact (known.exitLabels pair isPair).1
  have gainsFilled : Gains base filled switch := by
    obtain ⟨parts, isKind⟩ := stillSwitch
    exact isFilled ▸ (gains.tends discards).mapKind (isKind ▸ .switch)
  have range : (filled.node switch).range = (graph.node switch).range := by
    rw [← isFilled, range_mapKind, range_of_tends discards bound]
  have old {node : NodeId} (onLevel : graph.OnLevel id level node) : filled.OnLevel id level node :=
    isFilled ▸ onLevel_mapKind _ (onLevel_of_tends discards onLevel)
  have moves : Tends (merged switch level) filled (filled.substitute cases switch) :=
    risingFilled.tends_substitute (old isCases).bound (old isCases).level
  have seats : Tends (merged switch level) filled (seat location cases switch exit placement graph) := by
    unfold seat
    rw [isFilled]
    split
    · next node =>
      have target := onLevel_of_tends moves (old (isExit node rfl))
      exact moves.trans ((risingFilled.tends moves).tends_addEdge target.bound target.level)
    · exact moves
  exact ⟨risingFilled.tends seats, gainsFilled.tends seats,
    (range_of_tends seats risingFilled.structured.owner.lt).trans range⟩

theorem exists_rising_of_closed (rising : graph.Rising every switch level) (gains : Gains base graph switch)
    (isKind : ∃ parts, (graph.node switch).kind = .switch parts) (range : (graph.node switch).range = location.range)
    (isCases : graph.OnLevel id level cases) (apart : cases ≠ switch)
    (isExit : ∀ node, exit = some node → graph.OnLevel id level node) (known : placement.Within switch graph)
    (closed : next = (seat location cases switch exit placement (gather location level exit placement graph)).absorb
      switch level location.start location.stop) :
    ∃ seated : FlowGraph, seated.Rising every switch level ∧ Gains base seated switch ∧
      next = seated.absorb switch level (seated.node switch).start (seated.node switch).stop := by
  have gathers : Tends (merged switch level) graph (gather location level exit placement graph) :=
    tends_gather rising.sound known
  have bound := rising.structured.owner.lt
  obtain ⟨parts, isKind⟩ := isKind
  obtain ⟨risingSeated, gainsSeated, same⟩ : (seat location cases switch exit placement _).Rising every switch level ∧ _ :=
    rising_seat (rising.tends gathers) (gains.tends gathers)
      ((gathers.grows.nodes switch bound).kind.switch_iff.mpr ⟨_, isKind⟩)
      (onLevel_of_tends gathers isCases) apart (fun node same => onLevel_of_tends gathers (isExit node same))
      (known.later gathers)
  rw [range_of_tends gathers bound, range] at same
  obtain ⟨start, stop⟩ := AddressRange.mk.inj same
  rw [← start, ← stop] at closed
  exact ⟨_, risingSeated, gainsSeated, closed⟩

theorem Insertion.Follows.exists_rising {insertion : Insertion} {rights : Rights}
    (follows : insertion.Follows rights location session) (tidied : session.Tidied every)
    (known : ∀ id ∈ location.nodes, id < session.graph.size)
    (areBlocks : ∀ block ∈ location.branches, (session.graph.node block).kind.isBlock = true) :
    ∃ seated : FlowGraph, seated.Rising every insertion.switch insertion.level ∧
      Gains session.graph seated insertion.switch ∧ insertion.closed.graph =
        seated.absorb insertion.switch insertion.level (seated.node insertion.switch).start
          (seated.node insertion.switch).stop := by
  have sound := tidied.sound.graph
  have onLevel {block node : NodeId} (among : block ∈ location.nodes)
      (climbs : session.graph.climb block insertion.level = some node) :
      session.graph.OnLevel id insertion.level node :=
    ⟨sound.climb_lt (known block among) climbs, parent_climb climbs⟩
  have isCases := onLevel (by simp [SwitchLocation.nodes]) follows.isCases
  have isLevel : session.graph.IsLevel insertion.level := follows.isLevel ▸ sound.parents location.jumpBlock
  have raises : Raises session.graph insertion.made insertion.switch insertion.level := by
    rw [follows.made, follows.isNew]
    apply raises_addNode rfl rfl isLevel
    intro slot ref member
    simp only [Kind.slots, Option.toList_none, List.map_nil, List.append_nil,
      List.mem_singleton, Prod.mk.injEq] at member
    obtain ⟨rfl, rfl⟩ := member
    exact ⟨isCases.bound, isCases.level, rfl⟩
  have rising := raises.rising sound tidied.rooted tidied.tidy
  have old {node : NodeId} (onLevel : session.graph.OnLevel id insertion.level node) :
      insertion.made.OnLevel id insertion.level node := raises.toExtends.onLevel onLevel
  have branch (block : NodeId) (member : block ∈ location.branches)
      (onLevel : (session.graph.node block).parent = insertion.level) :
      (insertion.made.node block).kind.isBlock = true ∧
        insertion.made.OnLevel (merged insertion.switch insertion.level) insertion.level block := by
    have isBlock := areBlocks block member
    have bound := lt_size_of_isBlock isBlock
    exact ⟨by rwa [raises.old block bound], (old ⟨bound, onLevel⟩).merged insertion.switch⟩
  have compares (block : NodeId) (member : block ∈ location.compareBlocks) :=
    branch block (List.mem_append_left _ member) (follows.together block member)
  obtain ⟨isBlock, isJump⟩ := branch location.jumpBlock (by simp [SwitchLocation.branches]) follows.isLevel
  have flows (target : NodeId) (edge : ∃ compare ∈ location.compareBlocks,
      target ∈ (insertion.made.node compare).successors) :
      insertion.made.OnLevel (merged insertion.switch insertion.level) insertion.level target := by
    obtain ⟨compare, member, edge⟩ := edge
    exact onLevel_of_block rising.sound rising.stays (compares compare member).1 (compares compare member).2.level edge
  have toJumped := follows.dispatched.steps.tends rising.structured.owner
    (fun block member => (compares block member).2) flows
  have risingJumped := rising.tends toJumped
  have cuts : Tends (merged insertion.switch insertion.level) insertion.jumped insertion.dropped := by
    rw [follows.dropped]
    exact (Clips.dropBranch _ _ _ : Clips .full _ _).tends _
  have toPlaced := (toJumped.trans cuts).trans (follows.steps.tends (risingJumped.tends cuts).structured.owner
    (fun _ => False.elim) fun target isTarget => by
      obtain ⟨group, member, rfl⟩ := List.mem_map.mp isTarget
      refine cuts.onLevel ?_
      rcases follows.dispatched.mem_successors follows.grouped (List.mem_map_of_mem member) with edge | edge
      · exact toJumped.onLevel (flows _ edge)
      · exact onLevel_of_block risingJumped.sound risingJumped.stays ((toJumped.isBlock_eq _).trans isBlock)
          (toJumped.onLevel isJump).level edge)
  exact exists_rising_of_closed (rising.tends toPlaced) (raises.gains.tends toPlaced)
    ⟨_, (congrArg Node.kind follows.core :)⟩
    (congrArg Node.range follows.core :) (onLevel_of_tends toPlaced (old isCases))
    (follows.isNew ▸ Nat.ne_of_lt isCases.bound)
    (fun node same => onLevel_of_tends toPlaced (old (onLevel (by simp [SwitchLocation.nodes]) same)))
    follows.placed.within follows.closed

/-- The nodes there were are inside each other as they were, and every new switch covers all of them. -/
structure Overlays (graph next : FlowGraph) : Prop extends KeepsNesting graph next where
  covers : ∀ id parts, graph.size ≤ id → (next.node id).kind = .switch parts →
    ∀ other < graph.size, next.Covers id other

theorem Overlays.refl (graph : FlowGraph) : Overlays graph graph := by
  refine ⟨.refl graph, fun id parts fresh isSwitch => ?_⟩
  have isOwner : graph.Owner id := .of_kind isSwitch rfl
  exact absurd isOwner.lt (Nat.not_lt_of_le fresh)

theorem Overlays.gains (overlays : Overlays base graph) (sound : graph.Sound) (gains : Gains graph seated switch)
    (rising : seated.Rising every switch level) :
    Overlays base (seated.absorb switch level (seated.node switch).start (seated.node switch).stop) := by
  have keeps := rising.keepsNesting_absorb sound gains (seated.node switch).start (seated.node switch).stop
  refine ⟨overlays.toKeepsNesting.trans keeps, fun id parts fresh isSwitch other bound => ?_⟩
  by_cases old : id < graph.size
  · obtain ⟨before, wasSwitch⟩ := (keeps.grows.nodes id old).kind.switch_iff.mp ⟨parts, isSwitch⟩
    exact keeps.covers sound (overlays.covers id before fresh wasSwitch other bound) old (overlays.grows.lt bound)
  · have isOwner : seated.Owner id := by
      rw [node_absorb] at isSwitch
      split at isSwitch <;> exact .of_kind isSwitch rfl
    cases gains.only id (Nat.le_of_not_lt old) isOwner
    exact rising.covers_absorb sound gains (overlays.grows.lt bound) rfl

theorem tidies_insertSwitches (tidied : session.Tidied every) :
    Returns (insertSwitches source) session fun _ next =>
      next.Tidied every ∧ Overlays session.graph next.graph := by
  have sound := tidied.sound
  refine .getClaims_bind ?_
  extract_lets locations
  have clears : Revises Rights.full.settled (modifyClaims ({ · with switches := [] })) session _ :=
    .clearSwitches trivial
  refine .bind (.of_revises clears sound) ?_
  rintro _ start ⟨startSound, toStart, same⟩
  have startTidied : start.Tidied every := by
    refine ⟨startSound, tidied.nested.later toStart id id sound, ?_, ?_, ?_⟩
    · exact same ▸ tidied.rooted
    · exact same ▸ tidied.tidy
    · rw [same]
      exact List.forall_mem_nil _
  refine .bind (.forM (fun next => Edits Rights.full.settled session next ∧ next.Tidied every ∧
    Overlays session.graph next.graph) ⟨toStart, startTidied, same ▸ .refl _⟩ fun location member next before => ?_)
    fun _ _ kept => .pure kept.2
  obtain ⟨edits, tidiedNext, overlays⟩ := before
  have bounds := fun id among => edits.lt (sound.claims id (Claims.mem_nodes member among))
  have revises : Revises buildingRights (insertSwitch source location) next _ :=
    revises_insertSwitch trivial bounds
  have inserts : Returns (insertSwitch source location) next fun _ final =>
      final.graph.Tidy every ∧ Overlays session.graph final.graph := by
    refine .imp (.of_revises revises tidiedNext.sound) ?_
    rintro _ final ⟨_, _, _, insertion, follows, same⟩
    obtain ⟨seated, rising, gains, closed⟩ := follows.exists_rising tidiedNext bounds fun block among =>
      edits.isBlock (tidied.claimed location member block among)
    have shut := follows.shut
    rw [same]
    rw [closed] at shut ⊢
    exact ⟨rising.tidy_absorb shut, overlays.gains tidiedNext.sound.graph gains rising⟩
  apply Reaches.imp (.and (.tidied tidiedNext revises (inserts.imp fun _ _ done => done.1)) inserts)
  rintro _ final ⟨⟨toFinal, tidiedFinal⟩, _, overlaysFinal⟩
  exact ⟨edits.trans (toFinal.mono Rights.full.settled.keepingClaims_within), tidiedFinal, overlaysFinal⟩

/-! Initializers -/

theorem tidies_wrapInitializers {first target : NodeId} {level : Option NodeId} {start done : Nat}
    (tidied : session.Tidied every) (isBlock : (session.graph.node guard).kind.isBlock = true)
    (isGuard : session.graph.OnLevel id level guard) (isFirst : session.graph.OnLevel id level first)
    (isTarget : session.graph.OnLevel id level target) :
    Returns (wrapInitializers source guard first target level start done) session fun _ next =>
      Settles every session.graph next.graph ∧ KeepsNesting session.graph next.graph := by
  have sound := tidied.sound.graph
  refine .modifyGraph_bind fun cut _ isCut => ?_
  have toCut : Clips .full session.graph cut.graph := by
    rw [isCut]
    exact .single (.strip _ _ (fun _ => List.take_prefix _ _) )
  have thins := toCut.thins
  have toCut := toCut.tends id
  have keepsCut := toCut.keepsNesting sound
  have guardIdle : cut.graph.Idle guard := by
    refine .of_isBlock ((toCut.isBlock_eq guard).trans isBlock) ?_
    rw [isCut, successors_clearSuccessors, if_pos rfl]
  have raises : Raises cut.graph
      (cut.graph.addNode (.staticInit first) start done level) cut.graph.size level := by
    apply raises_addNode rfl rfl
    · intro owner isLevel
      exact toCut.grows.owner (sound.parents guard owner (isGuard.level.trans isLevel))
    · intro slot ref member
      cases List.mem_singleton.mp member
      have onLevel := onLevel_of_tends toCut isFirst
      exact ⟨onLevel.bound, onLevel.level, rfl⟩
  have rising := raises.rising (toCut.sound sound) (toCut.edits.rooted sound tidied.rooted)
    (toCut.tidy sound tidied.tidy)
  refine .addNode_bind fun made _ isMade => ?_
  have isNode : made.graph.node cut.graph.size =
      { start, stop := done, parent := level, kind := .staticInit first } := by
    rw [isMade, node_addNode, if_pos rfl]
  rw [← isMade] at rising raises
  have apart : first ≠ cut.graph.size := Nat.ne_of_lt (onLevel_of_tends toCut isFirst).bound
  generalize cut.graph.size = wrapper at *
  have old {node : NodeId} (onLevel : session.graph.OnLevel id level node) :
      made.graph.OnLevel id level node := raises.toExtends.onLevel (onLevel_of_tends toCut onLevel)
  have bound := (old isGuard).bound
  have guardMade : made.graph.Idle guard := by
    have same := raises.old guard (toCut.onLevel isGuard).bound
    exact ⟨same ▸ guardIdle.edges, same ▸ guardIdle.room⟩
  have guardApart : guard ≠ wrapper := raises.toExtends.lt_owner (toCut.onLevel isGuard).bound
  extract_lets finish
  -- The guard and the wrapper lead nowhere until both are led on.
  have onward (head : NodeId) (next : Session) (toNext : Tends (merged wrapper level) made.graph next.graph)
      (isHead : head < next.graph.size ∧ head ≠ wrapper ∧ next.graph.Prepared wrapper level .initializers head)
      (thinsNext : Thins made.graph next.graph) (guardNext : next.graph.Idle guard)
      (idle : next.graph.Idle wrapper) :
      Returns (finish head) next fun _ final =>
        Settles every session.graph final.graph ∧ KeepsNesting session.graph final.graph := by
    have risingNext := rising.tends toNext
    have becomes := toNext.grows.nodes wrapper rising.structured.owner.lt
    refine .modifyGraph_bind fun filled _ isFilled => ?_
    have risingFilled : filled.graph.Rising every wrapper level := by
      have kind := becomes.kind
      rw [isNode] at kind
      rw [isFilled]
      apply risingNext.fill rfl
      · generalize (next.graph.node wrapper).kind = after at kind
        cases kind
        exact .staticInit
      · intro ref member
        cases List.mem_singleton.mp member
        exact isHead.1
      · intro slot ref member
        cases List.mem_singleton.mp member
        exact ⟨by simp, by simp, isHead.2⟩
    have gainsFilled : Gains cut.graph filled.graph wrapper := by
      have kind := becomes.kind
      rw [isNode] at kind
      rw [isFilled]
      apply (raises.gains.tends toNext).mapKind
      generalize (next.graph.node wrapper).kind = after at kind
      cases kind
      exact .staticInit
    have range : (filled.graph.node wrapper).range = ⟨start, done⟩ := by
      rw [isFilled, range_mapKind, range_of_tends toNext rising.structured.owner.lt, isNode]
      rfl
    have oldFilled {node : NodeId} (onLevel : session.graph.OnLevel id level node) :
        filled.graph.OnLevel id level node := by
      rw [isFilled]
      exact onLevel_mapKind _ (onLevel_of_tends toNext (old onLevel))
    refine .modifyGraph_bind fun parted _ isParted => ?_
    have toParted : Tends (merged wrapper level) filled.graph parted.graph := by
      rw [isParted]
      exact (Clips.cutEdgesInto _ _ _ _ _ : Clips .full _ _).tends _
    have risingParted := risingFilled.tends toParted
    refine .modifyGraph_bind fun linked _ isLinked => ?_
    have guards := onLevel_of_tends toParted (oldFilled isGuard)
    have enters : Tends (merged wrapper level) parted.graph (parted.graph.addEdge guard wrapper) :=
      .addEdge (guards.merged wrapper)
        (OnLevel.merged wrapper ⟨risingParted.structured.owner.lt, risingParted.placed⟩)
    have target := onLevel_of_tends enters (onLevel_of_tends toParted (oldFilled isTarget))
    have toLinked : Tends (merged wrapper level) filled.graph linked.graph := by
      rw [isLinked]
      exact (toParted.trans enters).trans ((risingParted.tends enters).tends_addEdge target.bound target.level)
    have eases : Eases next.graph parted.graph := by
      rw [isParted, isFilled]
      refine (Eases.mapKind _ _ fun limit => ?_).trans (.cutEdgesInto _ _ _ _ _)
      have kind := becomes.kind
      rw [isNode] at kind
      generalize (next.graph.node wrapper).kind = after at kind
      cases kind
      exact Nat.le_refl _
    have thinsLinked : Thins session.graph linked.graph := by
      rw [isLinked]
      exact ((((thins.trans raises.thins).trans thinsNext).eases eases).addEdge (guardNext.eases eases) _).addEdge
        ((idle.eases eases).addEdge_of_ne guardApart _) _
    refine .bind (tidies_enclose (risingFilled.tends toLinked) ?_) ?_
    · rw [range_of_tends toLinked risingFilled.structured.owner.lt]
      exact range
    · rintro _ final ⟨kept, isFinal⟩
      have keeps : KeepsNesting session.graph final.graph := by
        rw [isFinal]
        exact keepsCut.trans ((risingFilled.tends toLinked).keepsNesting_absorb (toCut.sound sound)
          (gainsFilled.tends toLinked) _ _)
      have settles : Settles every session.graph final.graph := ⟨kept.tidy, thinsLinked.trans kept.thins⟩
      exact .getGraph_bind (@returns_announce _ _ _ (by intro; rfl)
        (fun graph => Settles every session.graph graph ∧ KeepsNesting session.graph graph) ⟨settles, keeps⟩)
  clear_value finish
  split
  · refine .addNode_bind fun next _ isNext => onward _ next ?_ ?_ ?_ ?_ ?_
    · rw [isNext]
      apply Tends.addNode _ rfl rfl
      rintro _ ⟨⟩
      exact rising.structured.owner
    · have inside : (next.graph.node made.graph.size).parent = some wrapper := by
        rw [isNext, node_addNode, if_pos rfl]
      refine ⟨lt_size_of_parent inside, Nat.ne_of_gt rising.structured.owner.lt, .made inside⟩
    · exact fun _ slim => isNext ▸ slim.addNode _ _ _ _
    · exact isNext ▸ guardMade.later bound _ _ _ _
    · exact isNext ▸ raises.idle.later rising.structured.owner.lt _ _ _ _
  · rw [pure_bind]
    exact onward first made (.refl _) ⟨(old isFirst).bound, apart, .beside (old isFirst).level (.inl rfl)⟩
      (.refl _) guardMade raises.idle

theorem tidies_buildStaticInit (tidied : session.Tidied every)
    (isBlock : (session.graph.node guard).kind.isBlock = true) :
    Returns (buildStaticInit source guard) session fun _ next =>
      Settles every session.graph next.graph ∧ KeepsNesting session.graph next.graph := by
  refine .getContext_bind ?_
  extract_lets node
  split
  · exact .pure ⟨⟨tidied.tidy, .refl _⟩, .refl _⟩
  · extract_lets build
    have onward : Returns (build ()) session fun _ next =>
        Settles every session.graph next.graph ∧ KeepsNesting session.graph next.graph := by
      dsimp only [build]
      split
      · next first target isSuccessors =>
        have leads (target : NodeId) (among : target ∈ node.successors) :
            session.graph.OnLevel id node.parent target :=
          onLevel_of_block tidied.sound.graph tidied.tidy.stays isBlock rfl among
        exact tidies_wrapInitializers tidied isBlock ⟨lt_size_of_isBlock isBlock, rfl⟩
          (leads first (by simp [isSuccessors])) (leads target (by simp [isSuccessors]))
      · exact .throw trivial
    split
    · exact .throw_bind trivial
    · exact onward

theorem tidies_buildStaticInits (tidied : session.Tidied every) :
    Returns (buildStaticInits source) session fun _ next =>
      session.Tidies every next ∧ KeepsNesting session.graph next.graph := by
  unfold buildStaticInits
  split
  · refine .getContext_bind ?_
    extract_lets guards
    refine .bind (.forM (fun next => session.Tidies every next ∧ KeepsNesting session.graph next.graph)
      ⟨.refl tidied, .refl _⟩ fun guard member next before => ?_) fun _ _ kept => .pure kept
    obtain ⟨before, keeps⟩ := before
    have isBlock := (tidied.sound.blocks guard).mp (List.mem_filter.mp member).1
    have builds : Returns (buildStaticInit source guard) next _ :=
      tidies_buildStaticInit before.tidied (before.edits.isBlock isBlock)
    refine .imp (.and (Reaches.tidies before.tidied (revises_buildStaticInit trivial)
      (builds.imp fun _ _ done => done.1)) builds) fun _ _ done => ?_
    exact ⟨before.trans done.1, keeps.trans done.2.2⟩
  · exact .pure ⟨.refl tidied, .refl _⟩

end Structuring.Recovery
