import Structuring.Proofs.Passes.Labels
import Structuring.Recovery.Switch.Dispatch

/-! Switches as edits.

Locating a switch changes nothing but the claims, and what it claims are blocks with a comparison
or a lone jump at their end. Inserting one takes all of these branches out.
-/

namespace Structuring.Recovery

open Bytecode FlowGraph

variable {rights : Rights} {session : Session} {source : Source} {location : SwitchLocation}
  {graph next : FlowGraph} {destinations : List Destination} {placement : LabelPlacement}
  {blocks claimed : List NodeId} {switch block fragment id : NodeId} {parts : Switch}

/-! Dispatches -/

def Failure.LacksDuplicate (failure : Failure) : Prop := ∃ range, failure = .malformed range .noDuplicate

structure Compares (graph : FlowGraph) (jumpStart : Nat) (blocks : List NodeId) (casesBlock : NodeId)
    (compareBlocks : List NodeId) : Prop where
  duplicated : duplicates (graph.node casesBlock) = true
  beyond : ∀ block ∈ compareBlocks, isCaseBefore graph jumpStart block = true
  last : compareBlocks.getLast? = blocks.getLast?
  split : ∃ earlier plain later first others, blocks = earlier ++ casesBlock :: plain ++ later ∧
    compareBlocks = first :: others ∧ (casesBlock :: plain).getLast? = some first ∧
    others.Sublist later ∧ ∀ block ∈ plain, duplicates (graph.node block) = false

theorem Compares.sublist {jumpStart : Nat} {casesBlock : NodeId} {compareBlocks : List NodeId}
    (compares : Compares graph jumpStart blocks casesBlock compareBlocks) :
    ∃ earlier within, blocks = earlier ++ casesBlock :: within ∧
      compareBlocks.Sublist (casesBlock :: within) := by
  obtain ⟨earlier, plain, later, first, others, rfl, rfl, isFirst, behind, -⟩ := compares.split
  refine ⟨earlier, plain ++ later, by simp, ?_⟩
  exact .append (List.singleton_sublist.mpr (List.mem_of_getLast? isFirst)) behind

structure Dispatch.Found (graph : FlowGraph) (dispatch : Dispatch) : Prop where
  compares : ∃ before later,
    fragmentBlocks graph dispatch.fragment = before ++ dispatch.jumpBlock :: later ∧
      Compares graph (graph.node dispatch.jumpBlock).start before dispatch.casesBlock dispatch.compareBlocks
  jumps : isLoneJump (graph.node dispatch.jumpBlock) = true

namespace Dispatch.Found

variable {dispatch : Dispatch} (found : dispatch.Found graph)

include found

theorem order : [dispatch.casesBlock, dispatch.jumpBlock].Sublist (fragmentBlocks graph dispatch.fragment) := by
  obtain ⟨before, later, isBlocks, compares⟩ := found.compares
  obtain ⟨earlier, within, rfl, -⟩ := compares.sublist
  rw [isBlocks]
  exact .append (List.singleton_sublist.mpr (by simp)) (List.singleton_sublist.mpr (.head _))

theorem mem (member : block ∈ dispatch.compareBlocks) : block ∈ fragmentBlocks graph dispatch.fragment := by
  obtain ⟨before, later, isBlocks, compares⟩ := found.compares
  obtain ⟨earlier, within, rfl, sublist⟩ := compares.sublist
  rw [isBlocks]
  exact List.mem_append_left _ (List.mem_append_right _ (sublist.subset member))

theorem exists_target (member : block ∈ dispatch.compareBlocks) :
    ∃ target, caseTarget? (graph.node block) = some target ∧
      (graph.node dispatch.jumpBlock).start < target := by
  obtain ⟨before, later, -, compares⟩ := found.compares
  have beyond := compares.beyond block member
  unfold isCaseBefore at beyond
  split at beyond
  · next target isTarget => exact ⟨target, isTarget, of_decide_eq_true beyond⟩
  · exact absurd beyond Bool.false_ne_true

end Dispatch.Found

/-- The blocks passed since the comparison that was found last do not duplicate a value. -/
theorem yields_walkDispatch (jumpStart : Nat) {known compares : List NodeId}
    (passed later others : List NodeId) {current : NodeId} (atCompare : Bool)
    (isKnown : blocks.reverse ++ passed ++ later = known)
    (reached : (blocks.head?.toList ++ passed).getLast? = some current)
    (isCompares : compares = current :: others) (behind : others.Sublist later)
    (plain : ∀ block ∈ passed, duplicates (graph.node block) = false)
    (beyond : ∀ block ∈ compares, isCaseBefore graph jumpStart block = true)
    (last : compares.getLast? = known.getLast?) :
    Yields (walkDispatch graph jumpStart current compares atCompare blocks)
      (fun result => Compares graph jumpStart known result.1 result.2) Failure.LacksDuplicate := by
  fun_induction walkDispatch graph jumpStart current compares atCompare blocks
    generalizing passed later others with
  | case1 => exact ⟨_, rfl⟩
  | case2 current compares atCompare block duplicated =>
    exact ⟨duplicated, beyond, last, [], passed, later, current, others, by simpa using isKnown.symm,
      isCompares, reached, behind, plain⟩
  | case3 current compares atCompare block duplicated previous rest before ih =>
    apply ih [] (block :: passed ++ later) compares (by simpa using isKnown) rfl rfl
    · subst isCompares
      exact .append (List.singleton_sublist.mpr (List.mem_of_getLast? reached)) behind
    · exact List.forall_mem_nil _
    · exact List.forall_mem_cons.mpr ⟨before, beyond⟩
    · subst isCompares
      rw [List.getLast?_cons_cons, last]
  | case4 current compares atCompare block duplicated previous rest _ =>
    exact ⟨duplicated, beyond, last, (previous :: rest).reverse, passed, later, current, others,
      by simpa using isKnown.symm, isCompares, reached, behind, plain⟩
  | case5 => exact ⟨_, rfl⟩
  | case6 current compares atCompare block earlier notDuplicated onward ih =>
    have some : earlier ≠ [] := by
      rintro rfl
      simp at onward
    obtain ⟨first, rest, rfl⟩ := List.exists_cons_of_ne_nil some
    apply ih (block :: passed) later others (by simpa using isKnown) (by simpa using reached) isCompares
      behind _ beyond last
    exact List.forall_mem_cons.mpr ⟨by simpa using notDuplicated, plain⟩

theorem yields_dispatchAt {jump : NodeId} {before rest : List NodeId}
    (splits : fragmentBlocks graph fragment = before.reverse ++ jump :: rest) :
    Yields (dispatchAt graph fragment jump before)
      (fun found => ∀ dispatch ∈ found, dispatch.fragment = fragment ∧ dispatch.Found graph)
      Failure.LacksDuplicate := by
  unfold dispatchAt
  dsimp only
  split
  · exact fun _ member => absurd member (by simp)
  · next last earlier =>
    split
    · next holds =>
      obtain ⟨isLone, isCase⟩ := Bool.and_eq_true_iff.mp holds
      have walk : Yields (walkDispatch graph (graph.node jump).start last [last] true (last :: earlier)) _ _ :=
        yields_walkDispatch (graph.node jump).start [] [] [] true rfl rfl rfl (.refl _)
          (List.forall_mem_nil _) (List.forall_mem_singleton.mpr isCase) (by simp)
      unfold Yields at walk
      split at walk
      · next result isResult =>
        rw [isResult]
        rintro _ ⟨⟩
        exact ⟨rfl, ⟨_, rest, by simpa using splits, walk⟩, isLone⟩
      · next failure isFailure =>
        rw [isFailure]
        exact walk
    · exact fun _ member => absurd member (by simp)

theorem yields_dispatchesFrom (before blocks : List NodeId)
    (splits : fragmentBlocks graph fragment = before.reverse ++ blocks) :
    Yields (dispatchesFrom graph fragment before blocks)
      (fun found => ∀ dispatch ∈ found, dispatch.fragment = fragment ∧ dispatch.Found graph)
      Failure.LacksDuplicate := by
  induction blocks generalizing before with
  | nil => exact List.forall_mem_nil _
  | cons block rest ih =>
    refine .bind (yields_dispatchAt splits) fun found first => ?_
    refine .bind (ih (block :: before) (by simp [splits])) fun more others => ?_
    intro dispatch member
    rcases List.mem_append.mp member with here | later
    · exact first dispatch (Option.mem_toList.mp here)
    · exact others dispatch later

theorem yields_findDispatches (context : Context) :
    Yields (findDispatches context)
      (fun found => ∀ dispatch ∈ found, dispatch.fragment ∈ context.fragments ∧ dispatch.Found context.graph)
      Failure.LacksDuplicate := by
  have each (fragment : NodeId) (_ : fragment ∈ context.fragments) :=
    yields_dispatchesFrom [] (fragmentBlocks context.graph fragment) rfl
  refine .bind (.mapM each) fun groups known => fun dispatch member => ?_
  obtain ⟨group, among, inGroup⟩ := List.mem_flatten.mp (mem_stableSort.mp member)
  obtain ⟨fragment, isFragment, holds⟩ := known group among
  obtain ⟨same, found⟩ := holds dispatch inGroup
  exact ⟨same ▸ isFragment, found⟩

/-! Locations -/

abbrev SwitchLocation.dispatch (location : SwitchLocation) : Dispatch where
  fragment := location.fragment
  casesBlock := location.casesBlock
  compareBlocks := location.compareBlocks
  jumpBlock := location.jumpBlock

/-- What is known of a switch that was located in a graph. -/
structure SwitchLocation.Located (graph : FlowGraph) (location : SwitchLocation) : Prop where
  found : location.dispatch.Found graph
  nodes : ∀ id ∈ location.nodes, id < graph.size
  start : location.start = (graph.node location.casesBlock).start
  stop : location.stop = (graph.node location.endBlock).start
  reach : ∀ target ∈ location.dispatch.targets graph, target ≤ location.stop

theorem mem_of_findExit? {furthest : Nat} {reached : Bool} {previous : Option NodeId}
    (found : findExit? graph claimed furthest reached previous blocks = some block) : block ∈ blocks := by
  fun_induction findExit? graph claimed furthest reached previous blocks with
  | case1 => cases found
  | case2 => simp_all
  | case3 _ _ _ _ _ _ _ ih => exact .tail _ (ih found)

theorem yields_locate (sound : graph.Sound) (claimed : List NodeId) {dispatch : Dispatch}
    (fragment : dispatch.fragment < graph.size) (found : dispatch.Found graph) :
    Yields (dispatch.locate graph claimed) fun location => location.Located graph := by
  unfold Dispatch.locate
  dsimp only
  split
  · rfl
  · next endBlock isEnd =>
    split
    · rfl
    · next within =>
      refine ⟨found, fun id member => ?_, rfl, rfl, fun target among => ?_⟩
      · have inside {block : NodeId} (member : block ∈ fragmentBlocks graph dispatch.fragment) :
            block < graph.size := lt_of_mem_fragmentBlocks sound member
        simp only [SwitchLocation.nodes, List.mem_cons] at member
        rcases member with rfl | rfl | rfl | rfl | member
        · exact fragment
        · exact inside (found.order.subset (.head _))
        · exact inside (found.order.subset (.tail _ (.head _)))
        · exact inside (mem_of_findExit? isEnd)
        · exact inside (found.mem member)
      · simpa using List.find?_eq_none.mp within target among

/-! Claims -/

def SwitchLocation.branches (location : SwitchLocation) : List NodeId :=
  location.compareBlocks ++ [location.jumpBlock]

theorem switches_foldl_claimBlock (blocks : List NodeId) (claims : Claims) :
    (blocks.foldl Claims.claimBlock claims).switches = claims.switches := by
  induction blocks generalizing claims with
  | nil => rfl
  | cons block rest ih =>
    rw [List.foldl_cons, ih, Claims.claimBlock]
    split <;> rfl

theorem mem_blocks_foldl_claimBlock {claims : Claims} :
    id ∈ (blocks.foldl Claims.claimBlock claims).blocks ↔ id ∈ claims.blocks ∨ id ∈ blocks := by
  induction blocks generalizing claims with
  | nil => simp
  | cons block rest ih =>
    rw [List.foldl_cons, ih, Claims.claimBlock]
    split
    · next claimed =>
      have listed : block ∈ claims.blocks := List.contains_iff_mem.mp claimed
      grind
    · simp only [List.mem_append, List.mem_cons, List.not_mem_nil, or_false, or_assoc]

theorem switches_claimSwitch (claims : Claims) (location : SwitchLocation) :
    (claims.claimSwitch location).switches = claims.switches ++ [location] := by
  rw [Claims.claimSwitch, switches_foldl_claimBlock]

theorem mem_blocks_claimSwitch {claims : Claims} :
    id ∈ (claims.claimSwitch location).blocks ↔ id ∈ claims.blocks ∨ id ∈ location.branches :=
  mem_blocks_foldl_claimBlock

theorem mem_nodes_claimSwitch {claims : Claims}
    (member : id ∈ (claims.claimSwitch location).nodes) : id ∈ claims.nodes ∨ id ∈ location.nodes := by
  simp only [Claims.nodes, switches_claimSwitch, List.mem_append, List.mem_flatMap,
    mem_blocks_claimSwitch, SwitchLocation.branches, SwitchLocation.nodes, List.mem_cons] at member ⊢
  grind

structure Claims.Extends (graph : FlowGraph) (before after : Claims) : Prop where
  kept : ∀ location ∈ before.switches, location ∈ after.switches
  switches : ∀ location ∈ after.switches, location ∈ before.switches ∨ location.Located graph
  blocks : ∀ block ∈ after.blocks, block ∈ before.blocks ∨
    ∃ location ∈ after.switches, block ∈ location.branches

theorem Claims.Extends.refl (graph : FlowGraph) (claims : Claims) : claims.Extends graph claims :=
  ⟨fun _ => id, fun _ => .inl, fun _ => .inl⟩

theorem Claims.extends_claimSwitch (claims : Claims) (located : location.Located graph) :
    claims.Extends graph (claims.claimSwitch location) := by
  refine ⟨fun other member => ?_, fun other member => ?_, fun block member => ?_⟩
  · rw [switches_claimSwitch]
    exact List.mem_append_left _ member
  · rw [switches_claimSwitch] at member
    rcases List.mem_append.mp member with old | new
    · exact .inl old
    · exact .inr (List.mem_singleton.mp new ▸ located)
  · rcases mem_blocks_claimSwitch.mp member with old | new
    · exact .inl old
    · exact .inr ⟨location, by simp [switches_claimSwitch], new⟩

theorem Claims.Extends.trans {first second third : Claims} (one : first.Extends graph second)
    (two : second.Extends graph third) : first.Extends graph third := by
  refine ⟨fun location member => two.kept location (one.kept location member),
    fun location member => ?_, fun block member => ?_⟩
  · rcases two.switches location member with old | located
    · exact one.switches location old
    · exact .inr located
  · rcases two.blocks block member with old | new
    · rcases one.blocks block old with older | ⟨location, among, branches⟩
      · exact .inl older
      · exact .inr ⟨location, two.kept location among, branches⟩
    · exact .inr new

theorem revises_claimDispatches (free : rights.claims) (dispatches : List Dispatch)
    (known : ∀ dispatch ∈ dispatches, dispatch.fragment < session.graph.size ∧ dispatch.Found session.graph) :
    Revises rights (claimDispatches source claimed dispatches) session fun _ next =>
      next.context = session.context ∧ session.claims.Extends session.graph next.claims := by
  induction dispatches generalizing session claimed with
  | nil => exact .pure ⟨rfl, .refl _ _⟩
  | cons dispatch rest ih =>
    refine .of_sound fun sound => .getGraph_bind ?_
    have located := yields_locate sound.graph claimed (known dispatch (.head _)).1 (known dispatch (.head _)).2
    unfold Yields at located
    split at located
    · next location isLocation =>
      rw [isLocation]
      refine .bind (.tell _) fun _ told toldSound _ same => ?_
      obtain ⟨sameContext, sameClaims⟩ := same
      refine .bind (.modifyClaims free fun id member => ?_) fun _ next _ _ isNext => ?_
      · rcases mem_nodes_claimSwitch member with old | new
        · exact toldSound.claims id old
        · exact sameContext ▸ located.nodes id new
      · have context : next.context = session.context := isNext ▸ sameContext
        have extended : session.claims.Extends session.graph next.claims := by
          rw [isNext, sameClaims]
          exact session.claims.extends_claimSwitch located
        refine .imp (ih fun other member => ?_) fun _ final known => ?_
        · exact context ▸ known other (.tail _ member)
        · rw [context] at known
          exact ⟨known.1, extended.trans known.2⟩
    · next failure isFailure =>
      rw [isFailure]
      exact .throw located

theorem revises_locateSwitches (free : rights.claims) :
    Revises rights (locateSwitches source) session fun _ next =>
      next.context = session.context ∧ session.claims.Extends session.graph next.claims := by
  refine .of_sound fun sound => .getContext_bind ?_
  have found := yields_findDispatches session.context
  unfold Yields at found
  split at found
  · next dispatches isFound =>
    rw [isFound]
    refine .bind (revises_claimDispatches free dispatches fun dispatch member => ?_) ?_
    · obtain ⟨isFragment, known⟩ := found dispatch member
      exact ⟨(sound.fragments _ isFragment).lt, known⟩
    · exact fun _ next _ _ known => .getClaims_bind (.pure known)
  · next failure isFailure =>
    obtain ⟨range, rfl⟩ := found
    rw [isFailure]
    exact .throw rfl

/-! Insertion -/

structure LabelPlacement.Known (graph : FlowGraph) (placement : LabelPlacement) : Prop where
  heads : ∀ head ∈ placement.heads, head.2 < graph.size
  body : ∀ id, placement.body = some id → id < graph.size
  exitLabels : ∀ pair, placement.exitLabels = some pair → pair.1 < graph.size ∧ pair.2 < graph.size

theorem LabelPlacement.Known.later (known : placement.Known graph)
    (grows : Grows graph next) : placement.Known next :=
  ⟨fun head member => grows.lt (known.heads head member), fun id same => grows.lt (known.body id same),
    fun pair same => ⟨grows.lt (known.exitLabels pair same).1, grows.lt (known.exitLabels pair same).2⟩⟩

theorem LabelPlacement.Placed.known {base : FlowGraph} {groups : List (Destination × List NodeId)}
    (placed : placement.Placed base switch location groups graph) : placement.Known graph := by
  have bound (id : NodeId) (member : id ∈ groups.flatMap (·.2)) := (placed.bounds member).2
  refine ⟨fun head member => bound _ (placed.heads head member), fun id same => ?_, fun pair same => ⟨?_, ?_⟩⟩
  · exact bound id (placed.mem_body same)
  · exact bound _ (placed.mem_exits same).1
  · exact bound _ (placed.mem_exits same).2

structure SwitchLocation.Settles (location : SwitchLocation) (graph next : FlowGraph) : Prop where
  compares : ∀ block ∈ location.compareBlocks, BareBut .bt (graph.node block).instructions →
    Bare (next.node block).instructions
  jump : BareBut .b (graph.node location.jumpBlock).instructions →
    Bare (next.node location.jumpBlock).instructions
  node : ∃ id parts, graph.size ≤ id ∧ (next.node id).kind = .switch parts ∧
    (next.node id).range = location.range

def gather (location : SwitchLocation) (level exit : Option NodeId) (placement : LabelPlacement)
    (graph : FlowGraph) : FlowGraph :=
  let linked := (breaksWithin graph level location).foldl (linkBreak placement.heads) graph
  match exit with
  | some exit => detachExit linked level location (placement.exitLabels.map (·.1)) exit
  | none => linked

def LabelPlacement.toSwitch (placement : LabelPlacement) (cases : NodeId) : Switch :=
  { cases, body := placement.body, endCases := placement.exitLabels.map (·.1) }

def seat (location : SwitchLocation) (cases switch : NodeId) (exit : Option NodeId)
    (placement : LabelPlacement) (graph : FlowGraph) : FlowGraph :=
  let moved := ((dropDiscard graph location.endBlock).mapKind switch
    fun _ => .switch (placement.toSwitch cases)).substitute cases switch
  match exit with
  | some exit => moved.addEdge switch exit
  | none => moved

section

variable {level exit : Option NodeId} {cases : NodeId}

theorem modifyGraph_modifyGraph {α : Type} (f g : FlowGraph → FlowGraph) (rest : Unit → Recover α) :
    (modifyGraph f >>= fun _ => modifyGraph g >>= rest) = modifyGraph (fun graph => g (f graph)) >>= rest := rfl

theorem closeSwitch_eq : closeSwitch location level cases switch exit placement =
    modifyGraph (fun graph => seat location cases switch exit placement (gather location level exit placement graph))
      >>= fun _ => enclose switch level location.start location.stop := by
  cases exit <;> simp only [closeSwitch, modifyGraph_modifyGraph] <;> rfl

theorem edits_gather (sound : graph.Sound) (known : placement.Known graph) :
    GraphEdits rights graph (gather location level exit placement graph) := by
  have linked : GraphEdits rights graph ((breaksWithin graph level location).foldl (linkBreak placement.heads) graph) :=
    edits_linkBreaks known.heads fun id member => List.mem_range.mp (List.mem_filter.mp member).1
  unfold gather
  split
  · refine linked.trans (edits_detachExit (linked.maintains.sound sound) _ _ _ _ fun label isLabel => ?_)
    obtain ⟨pair, isPair, rfl⟩ := Option.map_eq_some_iff.mp isLabel
    exact linked.maintains.grows.lt (known.exitLabels pair isPair).1
  · exact linked

theorem edits_seat (isSwitch : (graph.node switch).kind = .switch parts)
    (casesBound : cases < graph.size) (exitBound : ∀ id, exit = some id → id < graph.size)
    (known : placement.Known graph) :
    GraphEdits rights graph (seat location cases switch exit placement graph) := by
  have bound : switch < graph.size := Owner.lt (.of_kind isSwitch rfl)
  have discarded : GraphEdits rights graph (dropDiscard graph location.endBlock) :=
    Clips.edits (.dropDiscard _ _)
  have grows := discarded.maintains.grows
  have becomes := (grows.nodes switch bound).kind
  rw [isSwitch] at becomes
  obtain ⟨_, stillSwitch⟩ := becomes.switch_iff.mpr ⟨_, rfl⟩
  have filled : GraphEdits rights graph _ := discarded.tail
    (.fill switch (.switch (placement.toSwitch cases)) rfl (stillSwitch ▸ .switch) ?_ (.inr nofun))
  · unfold seat
    extract_lets moved
    have toMoved : GraphEdits rights graph moved := by
      refine filled.trans (edits_substitute (filled.maintains.grows.lt bound) (.inr fun _ _ _ _ => .inl ?_))
      exact (filled.maintains.grows.nodes switch bound).kind.switch_iff.mpr ⟨parts, isSwitch⟩
    have grows := toMoved.maintains.grows
    split
    · next id => exact toMoved.trans (edits_addEdge (grows.lt bound) (grows.lt (exitBound id rfl)))
    · exact toMoved
  · intro ref member
    simp only [Kind.references, LabelPlacement.toSwitch, List.mem_cons, List.mem_append, Option.mem_toList,
      Option.map_eq_some_iff] at member
    rcases member with rfl | isBody | ⟨pair, isPair, rfl⟩
    · exact grows.lt casesBound
    · exact grows.lt (known.body ref isBody)
    · exact grows.lt (known.exitLabels pair isPair).1

theorem revises_closeSwitch (free : rights.encloses)
    (isSwitch : (session.graph.node switch).kind = .switch parts)
    (onLevel : (session.graph.node switch).parent = level) (casesBound : cases < session.graph.size)
    (exitBound : ∀ id, exit = some id → id < session.graph.size) (known : placement.Known session.graph) :
    Revises rights (closeSwitch location level cases switch exit placement) session fun _ next =>
      next.graph = (seat location cases switch exit placement
        (gather location level exit placement session.graph)).absorb switch level location.start location.stop ∧
      next.graph.leak? switch = none := by
  have isOwner : session.graph.Owner switch := .of_kind isSwitch rfl
  rw [closeSwitch_eq]
  refine .of_sound fun sound => ?_
  have gathered : GraphEdits { rights with encloses := False } session.graph
      (gather location level exit placement session.graph) := edits_gather sound.graph known
  have grows := gathered.maintains.grows
  have becomes := (grows.nodes switch isOwner.lt).kind
  rw [isSwitch] at becomes
  obtain ⟨_, stillSwitch⟩ := becomes.switch_iff.mpr ⟨_, rfl⟩
  -- Until the switch takes its nodes in, it stays on its level.
  have still : Rights.Within { rights with encloses := False } rights :=
    ⟨fun _ _ _ => id, False.elim, id, id, id, id, id⟩
  refine .bind_within still (.modifyGraph (gathered.trans (edits_seat stillSwitch (grows.lt casesBound)
    (fun id isExit => grows.lt (exitBound id isExit)) (known.later grows))))
    fun _ seated _ toSeated isSeated => ?_
  refine .imp (.enclose free (toSeated.encloser (.of_kind isSwitch rfl rfl))
    ((toSeated.parent_of_staying id isOwner).trans onLevel)
    (.inr (toSeated.grows.grounded isOwner.lt (by simp [isSwitch])))) ?_
  rintro _ next ⟨rfl, shut⟩
  exact ⟨by rw [isSeated]; rfl, shut⟩

end

structure Insertion where
  level : Option NodeId
  cases : NodeId
  switch : NodeId
  made : FlowGraph
  jumped : FlowGraph
  dropped : FlowGraph
  groups : List (Destination × List NodeId)
  placement : LabelPlacement
  placed : Session
  closed : Session

structure Insertion.Follows (rights : Rights) (location : SwitchLocation) (session : Session)
    (insertion : Insertion) : Prop where
  isLevel : (session.graph.node location.jumpBlock).parent = insertion.level
  together : ∀ block ∈ location.compareBlocks, (session.graph.node block).parent = insertion.level
  isCases : session.graph.climb location.casesBlock insertion.level = some insertion.cases
  isNew : insertion.switch = session.graph.size
  made : insertion.made = session.graph.addNode
    (.switch { cases := insertion.cases, body := none, endCases := none }) location.start location.stop insertion.level
  dispatched : Dispatched insertion.switch location.compareBlocks insertion.made insertion.jumped
  dropped : insertion.dropped = insertion.jumped.dropBranch location.jumpBlock .b
  grouped : Grouped (location.compareBlocks.map (caseEntry insertion.made) ++ defaultEntry insertion.jumped location)
    (insertion.groups.map (·.1))
  sorted : (insertion.groups.map (·.1)).Pairwise fun first second =>
    (insertion.dropped.node first.target).start ≤ (insertion.dropped.node second.target).start
  steps : CaseSteps insertion.switch (fun _ => False) (· ∈ insertion.groups.map (·.1.target)) insertion.dropped
    insertion.placed.graph
  placed : insertion.placement.Placed insertion.dropped insertion.switch location insertion.groups
    insertion.placed.graph
  core : (insertion.placed.graph.node insertion.switch).core =
    ⟨location.start, location.stop, [], [], insertion.level, .switch ⟨insertion.cases, none, none⟩⟩
  toPlaced : Edits rights.staying session insertion.placed
  toClosed : Edits rights insertion.placed insertion.closed
  sound : insertion.placed.Sound
  closed : insertion.closed.graph = (seat location insertion.cases insertion.switch
    (session.graph.climb location.endBlock insertion.level) insertion.placement (gather location insertion.level
      (session.graph.climb location.endBlock insertion.level) insertion.placement
      insertion.placed.graph)).absorb insertion.switch insertion.level location.start location.stop
  shut : insertion.closed.graph.leak? insertion.switch = none

theorem revises_insertSwitch (free : rights.encloses)
    (known : ∀ id ∈ location.nodes, id < session.graph.size) :
    Revises rights (insertSwitch source location) session fun _ next =>
      location.Settles session.graph next.graph ∧
        ∃ insertion : Insertion, insertion.Follows rights location session ∧
          next.graph = insertion.closed.graph := by
  refine .of_sound fun sound => .getGraph_bind ?_
  extract_lets level exit build
  have compareBounds (block : NodeId) (member : block ∈ location.compareBlocks) :
      block < session.graph.size := known block (by simp [SwitchLocation.nodes, member])
  have jumpBound : location.jumpBlock < session.graph.size := known _ (by simp [SwitchLocation.nodes])
  have casesBound : location.casesBlock < session.graph.size := known _ (by simp [SwitchLocation.nodes])
  have exitBound (id : NodeId) (isExit : exit = some id) : id < session.graph.size :=
    sound.graph.climb_lt (known _ (by simp [SwitchLocation.nodes])) isExit
  split
  · exact .throw_bind rfl
  · next together =>
    dsimp only [build]
    split
    · exact .throw rfl
    · next cases isCases =>
      have casesBound := sound.graph.climb_lt casesBound isCases
      refine .bind_within rights.staying_within (.addNode rfl (by simpa [Kind.references] using casesBound)
        (sound.graph.parents location.jumpBlock)) fun switch made madeSound toMade isMade => ?_
      obtain ⟨isNew, isMade⟩ := isMade
      replace isMade := congrArg (fun session => session.graph) isMade
      dsimp only [Session.withGraph_graph] at isMade
      have isNode : made.graph.node switch =
          ⟨location.start, location.stop, [], [], level, .switch ⟨cases, none, none⟩⟩ := by
        rw [isMade, node_addNode, if_pos isNew]
      have isOwner : made.graph.Owner switch := .of_kind (congrArg Node.kind isNode) rfl
      have apart (block : NodeId) (inside : block < session.graph.size) : block ≠ switch :=
        isNew ▸ Nat.ne_of_lt inside
      refine .bind_within rights.staying_within (revises_insertCaseJumps _ isOwner
        fun block member => toMade.lt (compareBounds block member)) ?_
      rintro cased jumped jumpedSound toJumped ⟨isCased, dispatched, compareBare⟩
      refine .bind_within rights.staying_within revises_insertDefault ?_
      rintro destinations dropped - toDropped ⟨isDestinations, isDropped⟩
      have grouped := grouped_foldl (defaultEntry jumped.graph location)
        (isCased ▸ grouped_foldl (location.compareBlocks.map (caseEntry made.graph)) .empty)
      rw [← isDestinations] at grouped
      have bounds (destination : Destination) (member : destination ∈ destinations) :
          destination.target < dropped.graph.size := by
        rcases dispatched.mem_successors grouped member with ⟨compare, _, edge⟩ | edge
        · exact (toJumped.trans toDropped).lt (madeSound.graph.edges.target_lt edge)
        · exact toDropped.lt (jumpedSound.graph.edges.target_lt edge)
      refine .getGraph_bind ?_
      generalize isOrdered : stableSort (fun first second : Destination => decide
        ((dropped.graph.node first.target).start ≤ (dropped.graph.node second.target).start))
        destinations = ordered
      have perm : ordered.Perm destinations := isOrdered ▸ perm_stableSort _ _
      have afterMade := toJumped.trans toDropped
      refine .bind_within rights.staying_within (revises_placeAll (fun _ => False) (· ∈ ordered.map (·.target)) ordered
        (afterMade.owner isOwner) (.empty _ _ _) (fun destination member => ?_) ?_) ?_
      · exact ⟨List.mem_map_of_mem member, bounds destination (perm.mem_iff.mp member)⟩
      · exact (grouped.perm perm).distinct
      rintro placement placed placedSound toPlaced ⟨steps, groups, isGroups, isPlaced⟩
      rw [List.map_nil, List.nil_append] at isGroups
      have core : (placed.graph.node switch).core = (made.graph.node switch).core := by
        rw [isPlaced.cores switch (afterMade.lt isOwner.lt), isDropped,
          (Untouched.dropBranch (apart _ jumpBound) _ _).core]
        exact (dispatched.others switch isOwner.lt fun member => apart switch (compareBounds switch member) rfl).core
      rw [isNode] at core
      have toSession := (toMade.trans afterMade).trans toPlaced
      have isSwitch : (placed.graph.node switch).kind = .switch ⟨cases, none, none⟩ := (congrArg Node.kind core :)
      refine .bind (revises_closeSwitch free isSwitch (congrArg Node.parent core :)
        (toSession.lt casesBound) (fun id isExit => toSession.lt (exitBound id isExit)) isPlaced.known)
        fun _ closed _ toClosed isClosed => ?_
      have stillOwner := toClosed.owner ((afterMade.trans toPlaced).owner isOwner)
      have insertion : Insertion.Follows rights location session ⟨level, cases, switch, made.graph,
          jumped.graph, dropped.graph, groups, placement, placed, closed⟩ :=
        { isLevel := rfl
          together := by simpa using together
          isCases, isNew, made := isMade, dispatched, dropped := isDropped
          grouped := isGroups ▸ grouped.perm perm
          sorted := by
            rw [isGroups, ← isOrdered]
            refine (pairwise_stableSort (fun x y z => ?_) (fun x y => ?_) destinations).imp of_decide_eq_true
            all_goals simp only [decide_eq_true_eq, decide_eq_false_iff_not]
            all_goals omega
          steps := by rwa [← isGroups, List.map_map] at steps
          placed := isPlaced
          core, toPlaced := toSession, toClosed, sound := placedSound, closed := isClosed.1, shut := isClosed.2 }
      refine .imp (.mono (.refl rights) (.announce stillOwner)) fun _ final done => ?_
      have toFinal := toClosed.grows.trans done.1.grows
      have afterDropped := toPlaced.grows.trans toFinal
      refine ⟨⟨fun block member only => ?_, fun only => ?_, switch, ?_⟩, _, insertion, done.2⟩
      · have bound := compareBounds block member
        have bare := compareBare block member (toMade.grows.bareBut only bound)
        exact (toDropped.grows.trans afterDropped).bare bare (toJumped.lt (toMade.lt bound))
      · have toJumped := toMade.grows.trans toJumped.grows
        have bare := bare_dropBranch (toJumped.bareBut only jumpBound)
        rw [← isDropped] at bare
        exact afterDropped.bare bare (toDropped.lt (toJumped.lt jumpBound))
      · obtain ⟨start, stop, kind⟩ := toFinal.nodes switch ((afterMade.trans toPlaced).lt isOwner.lt)
        rw [isSwitch] at kind
        obtain ⟨parts, isSwitch⟩ := kind.switch_iff.mpr ⟨_, rfl⟩
        refine ⟨parts, Nat.le_of_eq isNew.symm, isSwitch, ?_⟩
        rw [Node.range, start, stop]
        exact (congrArg Node.range core :)

theorem SwitchLocation.Settles.mono {before after : FlowGraph}
    (settles : location.Settles before after) (known : ∀ id ∈ location.nodes, id < graph.size)
    (first : Grows graph before) (middle : Grows before after) (last : Grows after next) :
    location.Settles graph next := by
  refine ⟨fun block member only => ?_, fun only => ?_, ?_⟩
  · have bound := known block (by simp [SwitchLocation.nodes, member])
    have bare := settles.compares block member (first.bareBut only bound)
    exact last.bare bare (middle.lt (first.lt bound))
  · have bound := known location.jumpBlock (by simp [SwitchLocation.nodes])
    exact last.bare (settles.jump (first.bareBut only bound)) (middle.lt (first.lt bound))
  · obtain ⟨id, parts, fresh, isSwitch, range⟩ := settles.node
    have isOwner : after.Owner id := .of_kind isSwitch rfl
    obtain ⟨start, stop, kind⟩ := last.nodes id isOwner.lt
    rw [isSwitch] at kind
    obtain ⟨parts, isSwitch⟩ := kind.switch_iff.mpr ⟨_, rfl⟩
    refine ⟨id, parts, Nat.le_trans first.size fresh, isSwitch, ?_⟩
    rw [Node.range, start, stop]
    exact range

theorem revises_insertSwitches
    (free : rights.encloses) (claims : rights.claims) :
    Revises rights (insertSwitches source) session fun _ next =>
      next.claims.switches = [] ∧ ∀ location ∈ session.claims.switches,
        location.Settles session.graph next.graph := by
  refine .of_sound fun sound => .getClaims_bind ?_
  extract_lets locations
  refine .bind (.clearSwitches claims) fun _ start _ toStart same => ?_
  refine .bind_within rights.keepingClaims_within (.forM (fun location next =>
    location.Settles session.graph next.graph) ?_ ?_)
    fun _ next _ toNext settled => .pure ⟨?_, settled⟩
  · intro location member first second toFirst toSecond settled
    have toFirst := toStart.grows.trans toFirst.grows
    exact settled.mono (fun id => sound.claims id ∘ Claims.mem_nodes member) (.refl _) toFirst toSecond.grows
  · intro location member next toNext
    have toNext := toStart.trans (toNext.mono rights.keepingClaims_within)
    refine .imp (.mono (.refl _) (revises_insertSwitch free fun id among =>
      toNext.lt (sound.claims id (Claims.mem_nodes member among)))) fun _ final done => ?_
    exact done.2.1.mono (fun id => sound.claims id ∘ Claims.mem_nodes member) toNext.grows done.1.grows (.refl _)
  · rw [toNext.claims_eq id, same]

end Structuring.Recovery
