import Structuring.Proofs.Slots.Loop

/-! What chains and conditionals hold in their slots.

Operands and arms are what blocks of the level lead to, and blocks lead to their own level only.
-/

namespace Structuring.Recovery

open Bytecode FlowGraph

variable {source : Source} {session : Session} {level : Option NodeId} {every : Prop} {graph next : FlowGraph}
  {diamond : Diamond} {owner condition : NodeId}

/-! Chains -/

theorem leadingChain_level {level : Option NodeId} (fuel : Nat) {id : NodeId}
    (onLevel : (graph.node id).parent = level) :
    (graph.node (leadingChain graph level fuel id)).parent = level := by
  fun_induction leadingChain graph level fuel id with
  | case1 id => exact onLevel
  | case2 fuel id previous found _ ih => exact ih (lastNodeBefore?_spec found).2
  | case3 fuel id _ _ _ => exact onLevel
  | case4 fuel id _ => exact onLevel

theorem Diamond.first_level (found : diamond.Found graph) :
    (graph.node (diamond.first graph)).parent = diamond.level := by
  unfold Diamond.first
  split
  · exact found.constantLevel
  · next condition rest isConditions =>
    have onLevel := found.conditionLevels condition (by simp [isConditions])
    have top : (graph.node ((graph.climb condition diamond.level).getD condition)).parent = diamond.level := by
      cases climbs : graph.climb condition diamond.level with
      | none => exact onLevel
      | some top => exact parent_climb climbs
    dsimp only
    split
    · exact top
    · exact leadingChain_level _ top

theorem isBlock_of_diamondAt? {claims : Claims} {jump constant : NodeId}
    (found : diamondAt? graph claims jump constant = some diamond) :
    (graph.node diamond.constant).kind.isBlock = true ∧
      ∀ condition ∈ diamond.conditions, (graph.node condition).kind.isBlock = true := by
  unfold diamondAt? at found
  extract_lets node level joined conditions at found
  obtain ⟨logic, isConstant, found⟩ := Option.bind_eq_some_iff.mp found
  obtain ⟨consumer, _, found⟩ := Option.bind_eq_some_iff.mp found
  obtain ⟨fits, same⟩ := Option.ite_none_right_eq_some.mp found
  cases Option.some.inj same
  simp only [isCondition, Bool.and_eq_true, beq_iff_eq, List.all_eq_true] at fits
  constructor
  · unfold constantLogic? at isConstant
    split at isConstant
    · next push isPush =>
      have last : node.last? = some push := by simp [Node.last?, isPush]
      exact Node.isBlock_of_last? last
    · cases isConstant
  · exact fun condition member => isBlock_of_target (fits.2 condition member).2

theorem tidies_buildChain (tidied : session.Tidied every) (found : diamond.Found session.graph)
    (isConstant : (session.graph.node diamond.constant).kind.isBlock = true)
    (areConditions : ∀ condition ∈ diamond.conditions, (session.graph.node condition).kind.isBlock = true) :
    Returns (buildChain source diamond) session fun _ next => Settles every session.graph next.graph := by
  have sound := tidied.sound.graph
  refine .getGraph_bind ?_
  extract_lets first start stop
  have isFirst : session.graph.OnLevel id diamond.level first :=
    ⟨Diamond.first_lt sound found, Diamond.first_level found⟩
  have consumer := onLevel_of_block sound tidied.tidy.stays isConstant found.constantLevel found.flows
  refine .bind (.of_revises (revises_dropConditions _ _ : Revises buildingRights _ _ _) tidied.sound) ?_
  rintro operands dropped ⟨-, -, toDropped, chosen⟩
  refine .modifyGraph_bind fun cut _ isCut => ?_
  refine .modifyGraph_bind fun cleared _ isCleared => ?_
  have toCleared : Clips buildingRights dropped.graph cleared.graph := by
    rw [isCleared, isCut]
    exact (Clips.dropBranch _ _ _).tail (.clear _)
  have thins := toDropped.thins.trans toCleared.thins
  have toCleared := toCleared.tends id
  have toAll := (toDropped.tends id).trans toCleared
  have soundCleared := toAll.sound sound
  have raises : Raises cleared.graph (cleared.graph.addNode
      (.chain { logic := diamond.logic, operands := first :: operands }) start stop diamond.level)
      cleared.graph.size diamond.level := by
    apply raises_addNode rfl rfl
    · intro owner isLevel
      exact toAll.grows.owner (found.level owner isLevel)
    · intro slot ref member
      obtain ⟨_, among, same⟩ := List.mem_map.mp member
      cases same
      have onLevel : cleared.graph.OnLevel id diamond.level ref := by
        rcases List.mem_cons.mp among with rfl | among
        · exact onLevel_of_tends toAll isFirst
        · obtain ⟨condition, member, leads⟩ := chosen ref among
          exact onLevel_of_tends toCleared (onLevel_of_leadsAmid sound tidied.tidy
            (areConditions condition member) (found.conditionLevels condition member) leads)
      exact ⟨onLevel.bound, onLevel.level, rfl⟩
  refine .addNode_bind fun made _ isMade => ?_
  have rising := raises.rising soundCleared (toAll.edits.rooted sound tidied.rooted)
    (toAll.tidy sound tidied.tidy)
  have range : (made.graph.node cleared.graph.size).range = ⟨start, stop⟩ := by
    rw [isMade, node_addNode, if_pos rfl]
    rfl
  rw [← isMade] at rising raises
  have old {node : NodeId} (onLevel : session.graph.OnLevel id diamond.level node) :
      made.graph.OnLevel id diamond.level node := raises.toExtends.onLevel (onLevel_of_tends toAll onLevel)
  refine .modifyGraph_bind fun moved _ isMoved => ?_
  have toMoved : Tends (merged cleared.graph.size diamond.level) made.graph
      moved.graph := isMoved ▸ rising.tends_substitute (old isFirst).bound (old isFirst).level
  refine .modifyGraph_bind fun linked _ isLinked => ?_
  apply tidies_finish rising range _ _ (by intro; rfl)
  · have target := onLevel_of_tends toMoved (old consumer)
    rw [isLinked]
    exact toMoved.trans ((rising.tends toMoved).tends_addEdge target.bound target.level)
  · rw [isLinked, isMoved]
    exact thins.trans (raises.thins_replace _ _).2

theorem tidies_buildChainsFrom (tidied : session.Tidied every) (jump : NodeId) (blocks : List NodeId) :
    Returns (buildChainsFrom source jump blocks) session fun _ next => session.Tidies every next := by
  induction blocks generalizing session jump with
  | nil => exact .pure (.refl tidied)
  | cons constant rest ih =>
    have builds : Returns (buildChainAt source jump constant) session fun _ next =>
        session.Tidies every next := by
      refine .tidies tidied (revises_buildChainAt trivial jump constant) ?_
      refine .getGraph_bind (.getClaims_bind ?_)
      split
      · exact .pure ⟨tidied.tidy, .refl _⟩
      · next diamond isDiamond =>
        obtain ⟨isConstant, areConditions⟩ := isBlock_of_diamondAt? isDiamond
        have found := diamondAt?_spec tidied.sound.graph isDiamond
        exact .bind (tidies_buildChain tidied found isConstant areConditions) fun _ _ tidy => .pure tidy
    exact .bind builds fun _ _ next => .bind (ih next.tidied constant) fun _ _ final =>
      .pure (next.trans final)

theorem tidies_buildChains (tidied : session.Tidied every) :
    Returns (buildChains source) session fun _ next => session.Tidies every next := by
  unfold buildChains
  split
  · refine .getContext_bind ?_
    split
    · exact .pure (.refl tidied)
    · exact tidies_buildChainsFrom tidied _ _
  · exact .pure (.refl tidied)

/-! Conditionals -/

theorem parent_end_replaceJump (graph : FlowGraph) (block : NodeId) (sentinel : Sentinel) :
    ((graph.replaceJump block sentinel).1.node (graph.replaceJump block sentinel).2).parent =
      (graph.node block).parent := by
  have cut : (((graph.popInstruction block).clearSuccessors block).node block).parent =
      (graph.node block).parent :=
    ((sameCores_clearSuccessors _ block).parent block).trans (parent_mapInstructions _ block)
  unfold FlowGraph.replaceJump
  split
  · rfl
  · dsimp only
    generalize (graph.popInstruction block).clearSuccessors block = next at cut
    split
    · exact cut
    · split
      · rw [parent_substitute, node_addNode, if_pos rfl]
        exact cut
      · rw [(sameCores_addEdge _ _).parent, node_addNode, if_pos rfl]
        exact cut

structure Arms.Placed (arms : Arms) (graph : FlowGraph) (level : Option NodeId) (address : Nat) :
    Prop where
  whenTrue : ∀ arm, arms.whenTrue = some arm → graph.OnLevel id level arm
  otherwise : ∀ arm, arms.otherwise = some arm → graph.OnLevel id level arm
  join : graph.OnLevel id level arms.join
  extent : address ≤ arms.joinAddress

theorem Arms.Found.placed {rights : Rights} {arms : Arms}
    {first target : NodeId} {address : Nat} (found : arms.Found rights graph next level first target address)
    (sound : graph.Sound) (tidy : graph.Tidy every) (isFirst : graph.OnLevel id level first)
    (isTarget : graph.OnLevel id level target) : arms.Placed next level address := by
  have tends := found.clips.tends id
  refine ⟨fun arm isArm => ?_, fun arm isArm => found.otherwise arm isArm ▸ onLevel_of_tends tends isTarget, ?_,
    found.extent⟩
  · rcases found.whenTrue arm isArm with rfl | ⟨rfl, rfl⟩
    · exact onLevel_of_tends tends isFirst
    · exact ⟨replaceJump_lt .empty isFirst.bound, (parent_end_replaceJump _ first .empty).trans isFirst.level⟩
  · rcases found.join with same | ⟨last, onLevel, isBlock, member⟩
    · exact same ▸ onLevel_of_tends tends isTarget
    · exact onLevel_of_tends tends (onLevel_of_block sound tidy.stays isBlock onLevel member)

/-- A node for an arm is the given one, or a new one for the conditional to take. -/
theorem spares_orEmpty (id : Option NodeId) (address : Nat) :
    Returns (orEmpty id address) session fun found next =>
      Spares session.graph next.graph ∧ (id = some found.1 ∨ found.1 ∈ found.2) ∧
        ∀ made ∈ found.2, session.graph.size ≤ made ∧ made < next.graph.size ∧
          (next.graph.node made).kind = .sentinel .empty := by
  unfold orEmpty
  split
  · exact .pure ⟨.refl _, .inl rfl, List.forall_mem_nil _⟩
  · refine .addNode_bind fun next _ isNext => .pure ?_
    rw [isNext]
    refine ⟨(Spares.refl _).addEmpty _ _, .inr (.head _), fun made member => ?_⟩
    cases List.mem_singleton.mp member
    exact ⟨Nat.le_refl _, by simp, by rw [node_addNode, if_pos rfl]⟩

theorem extends_setParents {ids : List NodeId} (extended : Extends graph session.graph owner level)
    (empty : ∀ id ∈ ids, graph.size ≤ id ∧ id < session.graph.size ∧
      (session.graph.node id).kind = .sentinel .empty) :
    Returns (ids.forM fun id => modifyGraph (·.setParent id (some owner))) session fun _ next =>
      Extends graph next.graph owner level ∧
        next.graph.node owner = session.graph.node owner ∧
        ∀ id ∈ ids, (next.graph.node id).parent = some owner := by
  refine .imp (.forM_done (fun done next => Extends graph next.graph owner level ∧
    next.graph.size = session.graph.size ∧
    (∀ id, (next.graph.node id).kind = (session.graph.node id).kind) ∧
    next.graph.node owner = session.graph.node owner ∧
    ∀ id ∈ done, (next.graph.node id).parent = some owner) ?_ ?_) ?_
  · exact ⟨extended, rfl, fun _ => rfl, rfl, List.forall_mem_nil _⟩
  · rintro done id rest isIds next ⟨extendedNext, size, kinds, same, placed⟩
    obtain ⟨fresh, bound, isEmpty⟩ := empty id (isIds ▸ List.mem_append_right _ (.head _))
    have emptyNext := (kinds id).trans isEmpty
    have apart : id ≠ owner := by
      rintro rfl
      have structured := extendedNext.structured.owner
      rw [Owner, emptyNext] at structured
      exact absurd structured (by simp [Kind.isStructure])
    refine .imp .modifyGraph fun _ final isFinal => ?_
    rw [isFinal]
    refine ⟨extendedNext.place fresh emptyNext, (size_setParent _).trans size, fun other => ?_, ?_, fun other member => ?_⟩
    · refine Eq.trans ?_ (kinds other)
      show ((next.graph.setParent id (some owner)).node other).kind = _
      rw [setParent, node_modify]
      split <;> rfl
    · refine Eq.trans ?_ same
      show (next.graph.setParent id (some owner)).node owner = _
      rw [setParent, node_modify, if_neg fun here => apart here.1]
    · show ((next.graph.setParent id (some owner)).node other).parent = _
      rw [setParent, node_modify]
      split
      · rfl
      · next outside =>
        rcases List.mem_append.mp member with old | here
        · exact placed other old
        · cases List.mem_singleton.mp here
          exact absurd ⟨rfl, size.symm ▸ bound⟩ outside
  · exact fun _ _ kept => ⟨kept.1, kept.2.2.2⟩

/-- A conditional is made out of its condition and its arms, which are on its level or made for it. -/
theorem raises_conditional {parts : Conditional}
    (extended : Extends graph next owner level) (isKind : (next.node owner).kind = .conditional parts)
    (isCondition : graph.OnLevel id level parts.condition)
    (within : (graph.node parts.condition).startsWithin (next.node owner).start (next.node owner).stop = true)
    (arms : ∀ arm, arm = parts.whenTrue ∨ arm = parts.whenFalse ∨ parts.otherwise = some arm →
      graph.OnLevel id level arm ∨ (next.node arm).parent = some owner) :
    Raises graph next owner level := by
  refine ⟨extended, fun slot ref member => ?_⟩
  have isArm {slot : Slot} (loose : slot.isLoose = true)
      (among : ref = parts.whenTrue ∨ ref = parts.whenFalse ∨ parts.otherwise = some ref) :
      ref ≠ owner ∧ next.Prepared owner level slot ref := by
    rcases arms ref among with onLevel | inside
    · refine ⟨extended.lt_owner onLevel.bound, .beside ?_ (.inl loose)⟩
      rw [extended.old ref onLevel.bound]
      exact onLevel.level
    · refine ⟨?_, .made inside⟩
      rintro rfl
      exact extended.level_ne (extended.placed.symm.trans inside)
  rw [isKind] at member
  simp only [Kind.slots, List.mem_cons, List.mem_map, Option.mem_toList, Prod.mk.injEq] at member
  rcases member with ⟨rfl, rfl⟩ | ⟨rfl, isTrue⟩ | ⟨rfl, isFalse⟩ | ⟨_, isElse, rfl, rfl⟩
  · have kept := extended.old _ isCondition.bound
    refine ⟨extended.lt_owner isCondition.bound, .beside ?_ (.inr ?_)⟩
    · rw [kept]
      exact isCondition.level
    · rw [kept]
      exact within
  · exact isArm rfl (.inl isTrue)
  · exact isArm rfl (.inr (.inl isFalse))
  · exact isArm rfl (.inr (.inr isElse))

theorem tidies_wrapArms {start address : Nat} {arms : Arms}
    (sound : session.graph.Sound) (rooted : session.graph.Rooted)
    (tidy : session.graph.Tidy every) (isCondition : session.graph.OnLevel id level condition)
    (starts : (session.graph.node condition).start = start) (forward : start < address)
    (placed : arms.Placed session.graph level address) :
    Returns (wrapArms source condition level start address arms) session fun _ next =>
      Settles every session.graph next.graph := by
  refine .modifyGraph_bind fun dropped _ isDropped => ?_
  refine .modifyGraph_bind fun cut _ isCut => ?_
  have toCut : Clips buildingRights session.graph cut.graph := by
    rw [isCut, isDropped]
    exact (Clips.dropBranch _ _ _).trans (Clips.cutEdgesInto _ _ _ _ _)
  have thins := toCut.thins
  have toCut := toCut.tends id
  have isLevel : cut.graph.IsLevel level := by
    intro owner isLevel
    exact toCut.grows.owner (sound.parents condition owner (isCondition.level.trans isLevel))
  refine .bind (spares_orEmpty _ _) ?_
  rintro ⟨whenTrue, freshTrue⟩ one ⟨toOne, armTrue, newTrue⟩
  refine .bind (spares_orEmpty _ _) ?_
  rintro ⟨whenFalse, freshFalse⟩ two ⟨toTwo, armFalse, newFalse⟩
  dsimp only at armTrue armFalse newTrue newFalse ⊢
  have spares := toOne.trans toTwo
  have fresh (made : NodeId) (member : made ∈ freshTrue ++ freshFalse) :
      cut.graph.size ≤ made ∧ made < two.graph.size ∧ (two.graph.node made).kind = .sentinel .empty := by
    rcases List.mem_append.mp member with arm | arm
    · obtain ⟨new, bound, isEmpty⟩ := newTrue made arm
      refine ⟨new, Nat.lt_of_lt_of_le bound toTwo.size_le, ?_⟩
      rw [toTwo.old made bound]
      exact isEmpty
    · obtain ⟨new, bound, isEmpty⟩ := newFalse made arm
      exact ⟨Nat.le_trans toOne.size_le new, bound, isEmpty⟩
  generalize isOtherwise : (if arms.emptyElse = true then some whenFalse else arms.otherwise) = otherwise
  -- An arm is a node of the level or one of the new nodes.
  have isArm (arm : NodeId) (among : arm = whenTrue ∨ arm = whenFalse ∨ otherwise = some arm) :
      cut.graph.OnLevel id level arm ∨ arm ∈ freshTrue ++ freshFalse := by
    have second (isFalse : arm = whenFalse) :
        cut.graph.OnLevel id level arm ∨ arm ∈ freshTrue ++ freshFalse := by
      subst isFalse
      rcases armFalse with given | new
      · exact .inl (onLevel_of_tends toCut (placed.otherwise arm given))
      · exact .inr (List.mem_append_right _ new)
    rcases among with rfl | isFalse | isElse
    · rcases armTrue with given | new
      · exact .inl (onLevel_of_tends toCut (placed.whenTrue arm given))
      · exact .inr (List.mem_append_left _ new)
    · exact second isFalse
    · rw [← isOtherwise] at isElse
      split at isElse
      · exact second (Option.some.inj isElse).symm
      · exact .inl (onLevel_of_tends toCut (placed.otherwise arm isElse))
  have conditionCut := onLevel_of_tends toCut isCondition
  have armBound (arm : NodeId) (among : arm = whenTrue ∨ arm = whenFalse ∨ otherwise = some arm) :
      arm < two.graph.size := by
    rcases isArm arm among with onLevel | new
    · exact Nat.lt_of_lt_of_le onLevel.bound spares.size_le
    · exact (fresh arm new).2.1
  have extended : Extends cut.graph (two.graph.addNode
      (.conditional { condition, whenTrue, whenFalse, otherwise }) start arms.joinAddress level)
      two.graph.size level := by
    apply spares.addStructure rfl rfl _ isLevel
    intro ref member
    simp only [Kind.references, List.mem_cons, Option.mem_toList] at member
    rcases member with rfl | isTrue | isFalse | isElse
    · exact Nat.lt_of_lt_of_le conditionCut.bound spares.size_le
    · exact armBound ref (.inl isTrue)
    · exact armBound ref (.inr (.inl isFalse))
    · exact armBound ref (.inr (.inr isElse))
  refine .addNode_bind fun made _ isMade => ?_
  have isNode : made.graph.node two.graph.size =
      { start, stop := arms.joinAddress, parent := level
        kind := .conditional { condition, whenTrue, whenFalse, otherwise } } := by
    rw [isMade, node_addNode, if_pos rfl]
  rw [← isMade] at extended
  have empty (id : NodeId) (member : id ∈ freshTrue ++ freshFalse) :
      cut.graph.size ≤ id ∧ id < made.graph.size ∧ (made.graph.node id).kind = .sentinel .empty := by
    obtain ⟨new, bound, isEmpty⟩ := fresh id member
    rw [isMade, size_addNode, node_addNode, if_neg (Nat.ne_of_lt bound)]
    exact ⟨new, Nat.lt_succ_of_lt bound, isEmpty⟩
  refine .bind (extends_setParents extended empty) ?_
  rintro _ filled ⟨extended, same, inside⟩
  rw [isNode] at same
  generalize two.graph.size = conditional at *
  have within : (cut.graph.node condition).startsWithin start arms.joinAddress = true := by
    have begins : (cut.graph.node condition).start = start :=
      (toCut.grows.nodes condition isCondition.bound).start.trans starts
    simp only [Node.startsWithin, begins, Nat.le_refl, decide_true, Bool.true_and, decide_eq_true_eq]
    exact Nat.lt_of_lt_of_le forward placed.extent
  have raises : Raises cut.graph filled.graph conditional level := by
    apply raises_conditional extended (by rw [same]) conditionCut
    · rw [same]
      exact within
    · intro arm among
      exact (isArm arm among).imp_right (inside arm)
  have rising := raises.rising (toCut.sound sound) (toCut.edits.rooted sound rooted) (toCut.tidy sound tidy)
  have old {node : NodeId} (onLevel : session.graph.OnLevel id level node) :
      filled.graph.OnLevel id level node := raises.toExtends.onLevel (onLevel_of_tends toCut onLevel)
  refine .modifyGraph_bind fun moved _ isMoved => ?_
  have toMoved : Tends (merged conditional level) filled.graph moved.graph :=
    isMoved ▸ rising.tends_substitute (old isCondition).bound (old isCondition).level
  refine .modifyGraph_bind fun linked _ isLinked => ?_
  apply tidies_finish rising (by rw [same]; rfl) _ _ (by intro; rfl)
  · have target := onLevel_of_tends toMoved (old placed.join)
    rw [isLinked]
    exact toMoved.trans ((rising.tends toMoved).tends_addEdge target.bound target.level)
  · rw [isLinked, isMoved]
    exact thins.trans (raises.thins_replace _ _).2

theorem tidies_buildConditional (tidied : session.Tidied every)
    (isBlock : (session.graph.node condition).kind.isBlock = true) :
    Returns (buildConditional source condition) session fun _ next =>
      Settles every session.graph next.graph := by
  have sound := tidied.sound.graph
  refine .getGraph_bind ?_
  extract_lets node start level
  split
  · exact .pure ⟨tidied.tidy, .refl _⟩
  · next address _ =>
    extract_lets build
    have onward (forward : ¬address ≤ start) :
        Returns (build ()) session fun _ next =>
          Settles every session.graph next.graph := by
      dsimp only [build]
      split
      · next first target isSuccessors =>
        have isCondition : session.graph.OnLevel id level condition := ⟨lt_size_of_isBlock isBlock, rfl⟩
        have leads (target : NodeId) (among : target ∈ node.successors) :
            session.graph.OnLevel id level target :=
          onLevel_of_block sound tidied.tidy.stays isBlock rfl among
        refine .bind (.of_revises (revises_findArms : Revises buildingRights _ _ _) tidied.sound) ?_
        rintro arms next ⟨-, -, found⟩
        have placed := found.placed sound tidied.tidy (leads first (by simp [isSuccessors]))
          (leads target (by simp [isSuccessors]))
        have tends := found.clips.tends id
        apply Reaches.imp (tidies_wrapArms (tends.sound sound) (tends.edits.rooted sound tidied.rooted)
          (tends.tidy sound tidied.tidy) (onLevel_of_tends tends isCondition)
          (tends.grows.nodes condition isCondition.bound).start (Nat.lt_of_not_le forward) placed)
        exact fun _ _ kept => ⟨kept.tidy, found.clips.thins.trans kept.thins⟩
      · exact .throw trivial
    split
    · exact .throw_bind trivial
    · next forward => exact onward forward

theorem tidies_buildConditionals (tidied : session.Tidied every) :
    Returns (buildConditionals source) session fun _ next => session.Tidies every next := by
  have breaks {session : Session} (tidied : session.Tidied every) : Returns convertSwitchBreaks session
      fun _ next => session.Tidies every next := by
    have converts : Revises buildingRights convertSwitchBreaks session _ :=
      revises_convertSwitchBreaks id fun _ _ _ => trivial
    refine .tidies tidied converts (.imp (.of_revises converts tidied.sound) fun _ _ done => ?_)
    exact ⟨(done.2.2.tends id).tidy tidied.sound.graph tidied.tidy, done.2.2.thins⟩
  refine .bind (tidies_buildChains tidied) fun _ chained toChained => ?_
  refine .bind (breaks toChained.tidied) fun _ broken toBroken => .getContext_bind (.getClaims_bind ?_)
  extract_lets conditions
  have areBlocks (condition : NodeId) (member : condition ∈ conditions) :
      (broken.graph.node condition).kind.isBlock = true :=
    (toBroken.tidied.sound.blocks condition).mp (List.mem_reverse.mp (List.mem_filter.mp member).1)
  refine .bind (.forM (broken.Tidies every) (.refl toBroken.tidied) ?_) fun _ final toFinal =>
    .getContext_bind ?_
  · intro condition member next before
    have isBlock := before.edits.isBlock (areBlocks condition member)
    exact (Reaches.tidies before.tidied (revises_buildConditional trivial)
      (tidies_buildConditional before.tidied isBlock)).imp fun _ _ more => before.trans more
  · split
    · exact .throw trivial
    · exact .pure ((toChained.trans toBroken).trans toFinal)

end Structuring.Recovery
