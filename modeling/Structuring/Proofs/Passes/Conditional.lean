import Structuring.Proofs.Provenance
import Structuring.Recovery.Conditional

/-! Boolean chains and conditionals as edits.

Both only take out branches that they stand for. What is left at the end belongs to a located
switch or guards the initializers of static variables.
-/

namespace Structuring.Recovery

open Bytecode FlowGraph

variable {rights : Rights} {session next : Session} {source : Source} {graph : FlowGraph}
  {level : Option NodeId} {address start : Nat} {last id block first target condition : NodeId}

theorem lastNodeBefore?_spec (found : graph.lastNodeBefore? level address = some last) :
    last < graph.size ∧ (graph.node last).parent = level := by
  unfold lastNodeBefore? at found
  extract_lets candidates at found
  have known (id : NodeId) (member : id ∈ candidates) : id < graph.size ∧ (graph.node id).parent = level := by
    obtain ⟨among, fits⟩ := List.mem_filter.mp member
    simp only [Bool.and_eq_true, decide_eq_true_eq] at fits
    exact ⟨List.mem_range.mp among, fits.1.1⟩
  refine List.foldlRecOn (motive := fun best => ∀ id, best = some id →
    id < graph.size ∧ (graph.node id).parent = level)
    candidates _ (fun _ same => absurd same (by simp)) ?_ last found
  intro best before id member other chosen
  split at chosen
  · exact Option.some.inj chosen ▸ known id member
  · next old =>
    split at chosen
    · exact Option.some.inj chosen ▸ known id member
    · exact before other chosen

/-! Chains -/

structure Diamond.Found (graph : FlowGraph) (diamond : Diamond) : Prop where
  level : graph.IsLevel diamond.level
  constant : diamond.constant < graph.size
  consumer : diamond.consumer < graph.size
  conditions : ∀ condition ∈ diamond.conditions, condition < graph.size
  flows : diamond.consumer ∈ (graph.node diamond.constant).successors
  constantLevel : (graph.node diamond.constant).parent = diamond.level
  conditionLevels : ∀ condition ∈ diamond.conditions, (graph.node condition).parent = diamond.level
  blocks : ∀ id ∈ diamond.constant :: diamond.conditions, (graph.node id).kind.isBlock = true

theorem mem_of_mem_dropRepeats {ids : List NodeId} (member : id ∈ dropRepeats ids) : id ∈ ids := by
  fun_induction dropRepeats ids with
  | case1 => exact member
  | case2 => exact member
  | case3 first rest ih => exact .tail _ (ih member)
  | case4 first second rest _ ih =>
    rcases List.mem_cons.mp member with rfl | later
    · exact .head _
    · exact .tail _ (ih later)

theorem diamondAt?_spec {claims : Claims} {jump constant : NodeId} {diamond : Diamond}
    (sound : graph.Sound) (found : diamondAt? graph claims jump constant = some diamond) :
    diamond.Found graph := by
  unfold diamondAt? at found
  extract_lets node level joined conditions at found
  obtain ⟨logic, isConstant, found⟩ := Option.bind_eq_some_iff.mp found
  obtain ⟨consumer, isConsumer, found⟩ := Option.bind_eq_some_iff.mp found
  obtain ⟨fits, same⟩ := Option.ite_none_right_eq_some.mp found
  cases Option.some.inj same
  simp only [joined, isCondition, Bool.and_eq_true, beq_iff_eq, List.all_eq_true] at fits
  have among : consumer ∈ node.successors := by
    unfold consumer? at isConsumer
    split at isConsumer
    · next only isOnly =>
      obtain ⟨_, same⟩ := Option.ite_none_right_eq_some.mp isConsumer
      simp [isOnly, Option.some.inj same]
    · cases isConsumer
  refine ⟨sound.parents jump, lt_size_of_mem_successors among, sound.edges.target_lt among, ?_, among,
    fits.1.1.2, fun condition member => (fits.2 condition member).1.1, List.forall_mem_cons.mpr ⟨?_, ?_⟩⟩
  · intro condition member
    exact sound.edges.source_lt (mem_stableSort.mp (mem_of_mem_dropRepeats member))
  · unfold constantLogic? at isConstant
    split at isConstant
    · next push isPush => exact Node.isBlock_of_last? (by rw [Node.last?, isPush]; rfl)
    · cases isConstant
  · intro condition member
    obtain ⟨inst, last, _⟩ := Option.bind_eq_some_iff.mp (fits.2 condition member).2
    exact Node.isBlock_of_last? last

theorem leadingChain_lt (fuel : Nat) (bound : id < graph.size) :
    leadingChain graph level fuel id < graph.size := by
  fun_induction leadingChain graph level fuel id with
  | case1 id => exact bound
  | case2 fuel id previous found _ ih => exact ih (lastNodeBefore?_spec found).1
  | case3 fuel id _ _ _ => exact bound
  | case4 fuel id _ => exact bound

theorem ne_switch_of_isBlock (isBlock : (graph.node id).kind.isBlock = true) (parts : Switch) :
    (graph.node id).kind ≠ .switch parts := by
  intro same
  rw [same] at isBlock
  cases isBlock

theorem leadingChain_ne_switch (fuel : Nat) (apart : ∀ parts, (graph.node id).kind ≠ .switch parts) :
    ∀ parts, (graph.node (leadingChain graph level fuel id)).kind ≠ .switch parts := by
  fun_induction leadingChain graph level fuel id with
  | case1 id => exact apart
  | case2 fuel id previous _ chains ih =>
    refine ih fun parts same => ?_
    rw [isChain, same] at chains
    cases chains
  | case3 fuel id _ _ _ => exact apart
  | case4 fuel id _ => exact apart

theorem Diamond.first_ne_switch {diamond : Diamond} (found : diamond.Found graph) :
    ∀ parts, (graph.node (diamond.first graph)).kind ≠ .switch parts := by
  unfold Diamond.first
  split
  · exact ne_switch_of_isBlock (found.blocks _ (.head _))
  · next condition rest isConditions =>
    have member : condition ∈ diamond.conditions := by simp [isConditions]
    have isBlock := found.blocks condition (.tail _ member)
    have top : (graph.climb condition diamond.level).getD condition = condition := by
      unfold climb
      cases size : graph.size with
      | zero => rfl
      | succ fuel => rw [climbWithin, if_pos (found.conditionLevels condition member), Option.getD_some]
    dsimp only
    rw [top]
    split
    · exact ne_switch_of_isBlock isBlock
    · exact leadingChain_ne_switch _ (ne_switch_of_isBlock isBlock)

theorem Diamond.first_lt {diamond : Diamond} (sound : graph.Sound) (found : diamond.Found graph) :
    diamond.first graph < graph.size := by
  unfold Diamond.first
  split
  · exact found.constant
  · next condition rest isConditions =>
    have bound := found.conditions condition (by simp [isConditions])
    have top := sound.climb_getD_lt diamond.level bound
    dsimp only
    split
    · exact top
    · exact leadingChain_lt _ top

theorem revises_dropConditions (opcode : Opcode) (conditions : List NodeId) :
    Revises rights (dropConditions opcode conditions) session fun operands next =>
      Clips rights session.graph next.graph ∧ ∀ operand ∈ operands, ∃ condition ∈ conditions,
        LeadsAmid rights session.graph next.graph condition operand := by
  induction conditions generalizing session with
  | nil => exact .pure ⟨.refl, List.forall_mem_nil _⟩
  | cons condition rest ih =>
    refine .getGraph_bind ?_
    extract_lets first
    refine .clip_bind (.dropBranch _ _ _) fun cut _ _ _ toCut => .bind ih ?_
    rintro more next _ _ ⟨toNext, known⟩
    refine .pure ⟨toCut.trans toNext, fun operand member => ?_⟩
    rcases List.mem_append.mp member with isFirst | later
    · exact ⟨condition, .head _, _, .refl, toCut.trans toNext, List.mem_of_head? (Option.mem_toList.mp isFirst)⟩
    · obtain ⟨other, among, middle, toMiddle, onward, leads⟩ := known operand later
      exact ⟨other, .tail _ among, middle, toCut.trans toMiddle, onward, leads⟩

theorem revises_buildChain {diamond : Diamond} (free : rights.encloses)
    (found : diamond.Found session.graph) :
    Revises rights (buildChain source diamond) session fun _ _ => True := by
  refine .of_sound fun sound => .getGraph_bind ?_
  extract_lets first start stop
  have firstBound : first < session.graph.size := Diamond.first_lt sound.graph found
  refine .bind (revises_dropConditions _ _) fun operands dropped _ toDropped chosen => ?_
  refine .modifyGraph_bind (edits_dropBranch _ _ _) fun cut _ toCut _ => ?_
  refine .modifyGraph_bind (GraphEdit.clearSuccessors _).one fun cleared _ toCleared _ => ?_
  have toCleared' := (toDropped.trans toCut).trans toCleared
  refine .addNode_bind rfl ?_ (toCleared'.isLevel found.level) fun chain made _ toMade _ isNode _ => ?_
  · intro ref member
    rcases List.mem_cons.mp member with rfl | operand
    · exact toCleared'.lt firstBound
    · obtain ⟨_, _, leads⟩ := chosen.2 ref operand
      exact (toCut.trans toCleared).lt (leads.lt sound.graph)
  have isOwner : made.graph.Owner chain := .of_kind (congrArg Node.kind isNode) rfl
  have replaces (id : NodeId) : made.graph.Replaces id first chain :=
    (toCleared'.trans toMade).grows.replaces firstBound (Diamond.first_ne_switch found)
      (congrArg Node.start isNode :) isOwner
  refine .modifyGraph_staying (edits_substitute isOwner.lt (.inr fun id _ => replaces id)) fun moved _ toMoved _ => ?_
  have consumer := toMoved.lt (toMade.lt (toCleared'.lt found.consumer))
  refine .modifyGraph_staying (edits_addEdge (toMoved.lt isOwner.lt) consumer) fun linked _ toLinked _ => ?_
  have toLinked := toMoved.trans toLinked
  refine .enclose_bind free toLinked (.of_kind (congrArg Node.kind isNode) rfl rfl) (congrArg Node.parent isNode)
    (by simp [isNode]) fun closed _ toClosed => .any (.announce (toClosed.owner (toLinked.owner isOwner)))

theorem revises_buildChainAt (free : rights.encloses) (jump constant : NodeId) :
    Revises rights (buildChainAt source jump constant) session fun _ _ => True := by
  refine .of_sound fun sound => .getGraph_bind (.getClaims_bind ?_)
  split
  · exact .pure trivial
  · next diamond isDiamond =>
    refine .bind (revises_buildChain free (diamondAt?_spec sound.graph isDiamond)) ?_
    exact fun _ _ _ _ _ => .pure trivial

theorem revises_buildChainsFrom (free : rights.encloses) (jump : NodeId) (blocks : List NodeId) :
    Revises rights (buildChainsFrom source jump blocks) session fun _ _ => True := by
  induction blocks generalizing session jump with
  | nil => exact .pure trivial
  | cons constant rest ih =>
    refine .bind (revises_buildChainAt free jump constant) fun _ _ _ _ _ => ?_
    exact .bind (ih constant) fun _ _ _ _ _ => .pure trivial

theorem revises_buildChains (free : rights.encloses) :
    Revises rights (buildChains source) session fun _ _ => True := by
  unfold buildChains
  split
  · refine .getContext_bind ?_
    split
    · exact .pure trivial
    · exact revises_buildChainsFrom free _ _
  · exact .pure trivial

/-! Breaks of located switches -/

theorem revises_convertSwitchBreak {location : SwitchLocation}
    (marks : ∀ jump, breaksSwitch session.graph location block = true →
      jump.targetOf? .b = some location.stop → rights.marks block jump .breaks) :
    Revises rights (convertSwitchBreak location block) session fun _ next =>
      Clips rights session.graph next.graph := by
  refine .getGraph_bind ?_
  split
  · next breaks =>
    have target : (session.graph.node block).jumpTarget? = some location.stop := by
      simp only [breaksSwitch, Bool.and_eq_true, beq_iff_eq] at breaks
      exact breaks.2
    refine .clip_bind (.single (.mark block .breaks fun jump last => ?_)) fun _ _ _ _ clips => .pure clips
    rw [Node.jumpTarget?, Node.targetOf?, last] at target
    exact ⟨Instruction.opcode_eq target, fun _ => marks jump breaks target⟩
  · exact .pure .refl

def LeavesSwitch (session : Session) (block : NodeId) (jump : Instruction) : Prop :=
  ∃ location ∈ session.claims.switches,
    block ∈ fragmentBlocks session.graph location.fragment ∧
      jump.targetOf? .b = some location.stop ∧
      (session.graph.node location.jumpBlock).start < (session.graph.node block).start ∧
      (session.graph.node block).start < location.stop

theorem revises_convertSwitchBreaks (settled : ¬rights.owns)
    (marks : ∀ block jump, LeavesSwitch session block jump → rights.marks block jump .breaks) :
    Revises rights convertSwitchBreaks session fun _ next => Clips rights session.graph next.graph := by
  refine .of_sound fun sound => .getClaims_bind (.foldlM _ .refl fun location member changed next toNext clips => ?_)
  refine .getGraph_bind (.foldlM _ clips fun block among changed final toFinal clips => ?_)
  have edits := toNext.trans toFinal
  rw [toNext.fragmentBlocks_eq settled] at among
  refine .bind (revises_convertSwitchBreak fun jump breaks isJump => ?_) fun _ _ _ _ more =>
    .pure (clips.trans more)
  have jumpBound := sound.claims _ (Claims.jumpBlock_mem_nodes member)
  have blockBound := lt_of_mem_fragmentBlocks sound.graph among
  simp only [breaksSwitch, Bool.and_eq_true, decide_eq_true_eq,
    (edits.grows.nodes _ jumpBound).start, (edits.grows.nodes _ blockBound).start] at breaks
  exact marks block jump ⟨location, member, among, isJump, breaks.1.1, breaks.1.2⟩

/-! Conditionals -/

theorem replaceJump_lt (sentinel : Sentinel) (bound : block < graph.size) :
    (graph.replaceJump block sentinel).2 < (graph.replaceJump block sentinel).1.size := by
  have cutSize := size_cutJump graph block
  unfold replaceJump
  split
  · exact bound
  · dsimp only
    split
    · exact cutSize ▸ bound
    · split
      · simp [size_substitute]
      · simp [(sameCores_addEdge _ _).size]

def ArmFrom (graph next : FlowGraph) (first arm : NodeId) : Prop :=
  arm = first ∨ next = (graph.replaceJump first .empty).1 ∧ arm = (graph.replaceJump first .empty).2

theorem revises_dropArmJump {skip : Nat} (skips : (session.graph.node last).jumpTarget? = some skip) :
    Revises rights (dropArmJump first last) session fun arm next =>
      Clips rights session.graph next.graph ∧ ArmFrom session.graph next.graph first arm := by
  refine .getGraph_bind ?_
  extract_lets replaced
  refine .clip_bind (.single (.mark last .empty fun jump isLast => ⟨?_, absurd rfl⟩))
    fun next _ _ same clips => .pure ⟨clips, ?_⟩
  · rw [Node.jumpTarget?, Node.targetOf?, isLast] at skips
    exact Instruction.opcode_eq skips
  split
  · next isLast => exact isLast ▸ .inr ⟨same, rfl⟩
  · exact .inl rfl

structure Arms.Found (arms : Arms) (rights : Rights) (graph next : FlowGraph) (level : Option NodeId)
    (first target : NodeId) (address : Nat) : Prop where
  clips : Clips rights graph next
  whenTrue : ∀ arm, arms.whenTrue = some arm → ArmFrom graph next first arm
  otherwise : ∀ arm, arms.otherwise = some arm → arm = target
  join : arms.join = target ∨ ∃ last, (graph.node last).parent = level ∧
    (graph.node last).kind.isBlock = true ∧ arms.join ∈ (graph.node last).successors
  extent : address ≤ arms.joinAddress

theorem isBlock_of_target {node : Node} {opcode : Opcode} {target : Nat}
    (jumps : node.targetOf? opcode = some target) : node.kind.isBlock = true := by
  obtain ⟨inst, last, _⟩ := Option.bind_eq_some_iff.mp jumps
  exact Node.isBlock_of_last? last

theorem revises_findArms :
    Revises rights (findArms level start first target address) session fun arms next =>
      arms.Found rights session.graph next.graph level first target address := by
  unfold findArms
  split
  · exact .pure ⟨.refl, nofun, nofun, .inl rfl, Nat.le_refl _⟩
  · refine .getGraph_bind ?_
    split
    · exact .throw rfl
    · next last isLast =>
      dsimp only
      split
      · next skip isSkip =>
        split
        · refine .bind (revises_dropArmJump isSkip) fun arm next _ _ dropped =>
            .pure ⟨dropped.1, ?_, nofun, .inl rfl, Nat.le_refl _⟩
          rintro _ ⟨⟩
          exact dropped.2
        · split
          · next beyond =>
            split
            · exact .throw rfl
            · next join isJoin =>
              refine .bind (revises_dropArmJump isSkip) fun arm next _ _ dropped => .pure ⟨dropped.1, ?_, ?_, .inr ?_,
                Nat.le_of_lt beyond⟩
              · rintro _ ⟨⟩
                exact dropped.2
              · exact fun _ same => (Option.some.inj same).symm
              · exact ⟨last, (lastNodeBefore?_spec isLast).2, isBlock_of_target isSkip, List.mem_of_head? isJoin⟩
          · exact .throw rfl
      · split
        · exact .pure ⟨.refl, fun _ same => .inl (Option.some.inj same).symm, nofun, .inl rfl, Nat.le_refl _⟩
        · exact .throw rfl

structure Arms.Known (arms : Arms) (graph : FlowGraph) : Prop where
  whenTrue : ∀ id, arms.whenTrue = some id → id < graph.size
  otherwise : ∀ id, arms.otherwise = some id → id < graph.size
  join : arms.join < graph.size

theorem Arms.Found.known {arms : Arms} {next : FlowGraph}
    (found : arms.Found rights graph next level first target address) (sound : graph.Sound)
    (firstBound : first < graph.size) (targetBound : target < graph.size) : arms.Known next := by
  have grows := found.clips.maintains.grows
  refine ⟨fun id isArm => ?_, fun id isArm => found.otherwise id isArm ▸ grows.lt targetBound, ?_⟩
  · rcases found.whenTrue id isArm with rfl | ⟨rfl, rfl⟩
    · exact grows.lt firstBound
    · exact replaceJump_lt .empty firstBound
  · rcases found.join with same | ⟨_, _, _, member⟩
    · exact same ▸ grows.lt targetBound
    · exact grows.lt (sound.edges.target_lt member)

theorem revises_orEmpty {id : Option NodeId} (bound : ∀ known, id = some known → known < session.graph.size) :
    Revises rights (orEmpty id address) session fun found next =>
      found.1 < next.graph.size ∧
        ∀ fresh ∈ found.2, fresh < next.graph.size ∧ (next.graph.node fresh).kind = .sentinel .empty := by
  unfold orEmpty
  split
  · next known => exact .pure ⟨bound known rfl, List.forall_mem_nil _⟩
  · refine .addNode_bind rfl (List.forall_mem_nil _)
      (fun _ same => absurd same (by simp)) fun made next _ _ isNew isNode _ => .pure ⟨isNew, ?_⟩
    intro fresh member
    rw [List.mem_singleton.mp member]
    exact ⟨isNew, congrArg Node.kind isNode⟩

theorem revises_wrapArms {arms : Arms}
    (free : rights.encloses) (isBlock : (session.graph.node condition).kind.isBlock = true)
    (starts : (session.graph.node condition).start = start)
    (isLevel : session.graph.IsLevel level) (known : arms.Known session.graph) :
    Revises rights (wrapArms source condition level start address arms) session fun _ _ => True := by
  have conditionBound := lt_size_of_isBlock isBlock
  refine .modifyGraph_bind (edits_dropBranch _ _ _) fun dropped _ toDropped _ => ?_
  refine .clip_bind (.cutEdgesInto _ _ _ _ _) fun cut _ toCut _ _ => ?_
  have toCut := toDropped.trans toCut
  refine .bind (revises_orEmpty fun id isArm => toCut.lt (known.whenTrue id isArm)) ?_
  intro (whenTrue, freshTrue) one _ toOne madeTrue
  have toOne := toCut.trans toOne
  refine .bind (revises_orEmpty fun id isArm => toOne.lt (known.otherwise id isArm)) ?_
  intro (whenFalse, freshFalse) two _ toTwo madeFalse
  dsimp only at madeTrue madeFalse ⊢
  generalize isOtherwise : (if arms.emptyElse = true then some whenFalse else arms.otherwise) = otherwise
  have edits := toOne.trans toTwo
  have otherwiseBound (id : NodeId) (isArm : otherwise = some id) : id < two.graph.size := by
    rw [← isOtherwise] at isArm
    split at isArm
    · exact Option.some.inj isArm ▸ madeFalse.1
    · exact edits.lt (known.otherwise id isArm)
  refine .addNode_bind rfl ?_ (edits.isLevel isLevel) fun conditional made _ toMade _ isNode _ => ?_
  · intro ref member
    simp only [Kind.references, List.mem_cons, Option.mem_toList] at member
    rcases member with rfl | rfl | rfl | isArm
    · exact edits.lt conditionBound
    · exact toTwo.lt madeTrue.1
    · exact madeFalse.1
    · exact otherwiseBound ref isArm
  have isOwner : made.graph.Owner conditional := .of_kind (congrArg Node.kind isNode) rfl
  have fresh (id : NodeId) (member : id ∈ freshTrue ++ freshFalse) :
      id < made.graph.size ∧ (made.graph.node id).kind = .sentinel .empty := by
    rcases List.mem_append.mp member with arm | arm
    · obtain ⟨bound, isEmpty⟩ := madeTrue.2 id arm
      have edits := toTwo.trans toMade
      exact ⟨edits.lt bound, edits.sentinel isEmpty bound⟩
    · obtain ⟨bound, isEmpty⟩ := madeFalse.2 id arm
      exact ⟨toMade.lt bound, toMade.sentinel isEmpty bound⟩
  refine .bind_within rights.staying_within (.forEach fun id member next toNext => .any
    (.modifyGraph (GraphEdit.place id conditional
      (toNext.sentinel (fresh id member).2 (fresh id member).1) (toNext.owner isOwner)).one))
    fun _ placed _ toPlaced _ => ?_
  have replaces (id : NodeId) : placed.graph.Replaces id condition conditional := by
    refine (edits.trans (toMade.trans (toPlaced.mono rights.staying_within))).grows.replaces conditionBound
      (ne_switch_of_isBlock isBlock) ?_ (toPlaced.owner isOwner)
    rw [(toPlaced.grows.nodes conditional isOwner.lt).start, isNode, starts]
  refine .modifyGraph_staying (edits_substitute (toPlaced.lt isOwner.lt) (.inr fun id _ => replaces id))
    fun moved _ toMoved _ => ?_
  have toMoved := toPlaced.trans toMoved
  have joinBound := toMoved.lt (toMade.lt (edits.lt known.join))
  refine .modifyGraph_staying (edits_addEdge (toMoved.lt isOwner.lt) joinBound) fun linked _ toLinked _ => ?_
  have toLinked := toMoved.trans toLinked
  refine .enclose_bind free toLinked (.of_kind (congrArg Node.kind isNode) rfl rfl) (congrArg Node.parent isNode)
    (by simp [isNode]) fun closed _ toClosed => .any (.announce (toClosed.owner (toLinked.owner isOwner)))

theorem revises_buildConditional (free : rights.encloses) :
    Revises rights (buildConditional source condition) session fun _ _ => True := by
  refine .of_sound fun sound => .getGraph_bind ?_
  extract_lets node start level
  split
  · exact .pure trivial
  · next address isTarget =>
    extract_lets build
    have onward : Revises rights (build ()) session fun _ _ => True := by
      dsimp only [build]
      split
      · next first target isSuccessors =>
        have bounds (id : NodeId) (member : id ∈ [first, target]) : id < session.graph.size :=
          sound.graph.edges.target_lt (isSuccessors ▸ member)
        obtain ⟨inst, last, _⟩ := Option.bind_eq_some_iff.mp isTarget
        have isBlock := Node.isBlock_of_last? last
        refine .bind revises_findArms fun arms next _ toNext found => ?_
        exact revises_wrapArms free (toNext.isBlock isBlock)
          (toNext.grows.nodes condition (lt_size_of_isBlock isBlock)).start (toNext.isLevel (sound.graph.parents condition))
          (found.known sound.graph (bounds first (by simp)) (bounds target (by simp)))
      · exact .throw rfl
    split
    · exact .throw_bind rfl
    · exact onward

/-! The whole pass -/

theorem LeavesSwitch.earlier {jump : Instruction}
    (leaves : LeavesSwitch next block jump) (sound : session.Sound) (edits : Edits rights session next)
    (settled : ¬rights.owns) (kept : ¬rights.claims) : LeavesSwitch session block jump := by
  obtain ⟨location, member, among, target, after, before⟩ := leaves
  rw [edits.claims_eq kept] at member
  rw [edits.fragmentBlocks_eq settled] at among
  have jumpBound := sound.claims _ (Claims.jumpBlock_mem_nodes member)
  have blockBound := lt_of_mem_fragmentBlocks sound.graph among
  rw [(edits.grows.nodes _ blockBound).start] at after before
  rw [(edits.grows.nodes _ jumpBound).start] at after
  exact ⟨location, member, among, target, after, before⟩

def conditionalRights (session : Session) : Rights :=
  { Rights.none with
    marks := fun block jump which => which = .breaks ∧ LeavesSwitch session block jump
    encloses := True }

theorem traced_of_conditionalRights (sound : session.Sound)
    (edits : Edits (conditionalRights session) session next)
    (ordered : session.claims.Ordered session.graph) (traced : Traced source session) :
    Traced source next := by
  have kept := edits.claims_eq id
  refine traced.of_marks sound edits id id id (fun _ member => kept ▸ member) ?_
  rintro _ block jump which ⟨rfl, location, member, among, target, after, before⟩
  have start := (edits.grows.nodes _ (lt_of_mem_fragmentBlocks sound.graph among)).start
  refine ⟨location.fragment, location.stop, among, target, .inr ⟨rfl, location, kept ▸ member, ?_, rfl⟩⟩
  have inside := Nat.le_trans (ordered location member) (Nat.le_of_lt after)
  simp [SwitchLocation.contains, start, inside, before]

theorem revises_leftovers :
    Revises (conditionalRights session) (buildConditionals source) session fun _ next =>
      ∀ block ∈ next.blocks, leftoverFailure? source next.context session.claims block = none := by
  refine .of_sound fun sound => .bind (revises_buildChains trivial) fun _ chained _ toChained _ => ?_
  refine .bind (revises_convertSwitchBreaks id fun block jump leaves => ?_) fun _ broken _ toBroken _ => ?_
  · exact ⟨rfl, leaves.earlier sound toChained id id⟩
  refine .getContext_bind (.getClaims_bind ?_)
  rw [(toChained.trans toBroken).claims_eq id]
  extract_lets conditions
  refine .bind (.forEach fun condition _ _ _ => revises_buildConditional trivial)
    fun _ next _ _ _ => .getContext_bind ?_
  split
  · next failure isFailure =>
    obtain ⟨block, _, found⟩ := List.exists_of_findSome?_eq_some isFailure
    obtain ⟨inst, _, found⟩ := Option.bind_eq_some_iff.mp found
    obtain ⟨_, same⟩ := Option.ite_none_right_eq_some.mp found
    exact .throw (Option.some.inj same ▸ rfl)
  · next none => exact .pure (List.findSome?_eq_none_iff.mp none)

/-- Once conditionals are built, what branches are left belong to later passes. -/
theorem revises_buildConditionals (free : rights.encloses)
    (marks : ∀ block jump which, rights.marks block jump which) :
    Revises rights (buildConditionals source) session fun _ next =>
      next.claims = session.claims ∧
        (∀ block ∈ next.blocks, leftoverFailure? source next.context next.claims block = none) ∧
        (session.claims.Ordered session.graph → Traced source session → Traced source next) := by
  have within : (conditionalRights session).Within rights :=
    ⟨fun block jump which _ => marks block jump which, fun _ => free, False.elim, False.elim, False.elim,
      False.elim, False.elim⟩
  refine .of_sound fun sound => .imp (.mono within revises_leftovers) fun _ next done => ?_
  have kept := done.1.claims_eq id
  exact ⟨kept, kept ▸ done.2, traced_of_conditionalRights sound done.1⟩

end Structuring.Recovery
