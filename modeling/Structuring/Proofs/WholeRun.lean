import Structuring.Proofs.Nesting
import Structuring.Proofs.Sequence
import Structuring.Proofs.Wiring

/-! Whole runs on assembled code.

A block holds a branch only at its end. Branches of dispatches and of static guards outlast the
conditionals, and are taken out when switches are inserted and initializers wrapped. So a run that
gets to its end leaves no branch. A run that fails does so for a reason in the code entry.
-/

namespace Structuring

open Bytecode Recovery FlowGraph

variable {source : Source} {session final : Session} {pass : Pass} {rest : List Pass} {options : RunOptions}
  {changed : List String} {claims : Claims} {good : Session → Prop} {graph next : FlowGraph}

/-! One pass after another -/

/-- What a pass achieves is known to the passes after it, unless the run stops there. -/
theorem revises_runPasses_cons (rights : Rights) (holds : Context → Claims → Prop)
    (first : Revises rights (pass.apply source) session fun _ next => holds next.context next.claims)
    (second : ∀ changed next, next.Sound → Edits rights session next →
      holds next.context next.claims →
      Revises .full (runPasses source options changed rest) next fun outcome final =>
        outcome.stoppedEarly = false → good final) :
    Revises .full (runPasses source options changed (pass :: rest)) session fun outcome final =>
      outcome.stoppedEarly = false → good final := by
  refine .bind_within rights.within_full (.applyPass holds first _) fun did next sound edits known => ?_
  dsimp only
  split
  · exact .pure fun early => absurd early (by simp)
  · exact second _ next sound edits known

def AllBare (graph : FlowGraph) : Prop := ∀ id, Bare (graph.node id).instructions

theorem AllBare.remainingJump?_eq_none (bare : AllBare graph) : graph.remainingJump? = none := by
  rw [remainingJump?, List.findSome?_eq_none_iff]
  intro id _
  rw [remainingJumpOf?, Option.map_eq_none_iff, List.find?_eq_none]
  intro inst member
  simp [bare id inst member]

theorem revises_runPasses_nil (bare : AllBare session.graph) (known : good session) :
    Revises .full (runPasses source options changed []) session fun outcome final =>
      outcome.stoppedEarly = false → good final := by
  refine .getGraph_bind ?_
  rw [bare.remainingJump?_eq_none]
  exact .pure fun _ => known

/-! Branches -/

section

variable (cut : CutFrom source.code.slices session.context)

include cut

theorem Recovery.CutFrom.bare_dropLast
    (sound : session.Sound) (ordered : InOrder source.code.instructions) (id : NodeId) :
    Bare (session.graph.node id).instructions.dropLast := by
  cases isBlock : (session.graph.node id).kind.isBlock with
  | true =>
    obtain ⟨slice, member, isCut⟩ := cut.slice sound isBlock
    exact (bare_dropLast_slice ordered member).dropLast isCut.shorter
  | false =>
    rw [Node.instructions_of_not_isBlock isBlock]
    exact List.forall_mem_nil _

theorem Recovery.CutFrom.map_start :
    session.blocks.map (fun block => (session.graph.node block).start) = cutPoints source.code := by
  rw [← map_start_sliceAt (cutPoints source.code) source.code.instructions]
  refine List.forall₂_eq_eq_eq ▸ List.forall₂_map_left_iff.mpr (List.forall₂_map_right_iff.mpr ?_)
  exact cut.imp fun _ _ isCut => congrArg AddressRange.start isCut.range

theorem Recovery.CutFrom.increasing : session.context.Increasing :=
  List.pairwise_map.mp (cut.map_start ▸ sorted_cutPoints source.code)

theorem Recovery.CutFrom.blocks_ne_nil : session.blocks ≠ [] := by
  intro empty
  have zero := zero_mem_cutPoints source.code
  rw [← cut.map_start, empty] at zero
  cases zero

theorem Recovery.CutFrom.holdsCode (sound : session.Sound) (ordered : InOrder source.code.instructions) :
    HoldsCode source session.graph := by
  intro id inst member
  cases isBlock : (session.graph.node id).kind.isBlock with
  | true =>
    obtain ⟨slice, among, isCut⟩ := cut.slice sound isBlock
    have isSlice := isSlice_cutPoints ordered.rising among
    have inSlice := isCut.shorter.subset inst member
    obtain ⟨start, stop⟩ := AddressRange.mk.inj isCut.range
    exact ⟨isSlice.sublist.subset inSlice, start ▸ isSlice.start inst inSlice, stop ▸ isSlice.stop inst inSlice⟩
  | false =>
    rw [Node.instructions_of_not_isBlock isBlock] at member
    cases member

end

def cuttingRights : Rights := { Rights.none with cuts := True }

theorem Recovery.CutFrom.laid (cut : CutFrom source.code.slices session.context)
    (edits : Edits cuttingRights {} session) (ordered : InOrder source.code.instructions)
    (lands : session.graph.JumpsLand) : session.Laid source := by
  have sound := edits.sound Session.sound_empty
  refine ⟨lands, cut.bare_dropLast sound ordered, fun fragment => ?_, cut.increasing,
    cut.holdsCode sound ordered, ?_⟩
  · rw [edits.fragmentBlocks_eq id]
    rfl
  · refine Unmarked.later (fun id which isSentinel => ?_) edits fun _ _ _ => id
    cases isSentinel
    rfl

theorem bareBut_of_caseTarget? {node : Node} (init : Bare node.instructions.dropLast)
    (compares : (caseTarget? node).isSome = true) : BareBut .bt node.instructions := by
  refine ⟨init, fun inst last _ => ?_⟩
  unfold caseTarget? at compares
  split at compares
  · next branch compare rest isReverse =>
    have isLast : inst = branch := by
      rw [List.getLast?_eq_head?_reverse, isReverse] at last
      exact (Option.some.inj last).symm
    split at compares
    · unfold Instruction.targetOf? at compares
      split at compares
      · next same => exact isLast ▸ eq_of_beq same
      · cases compares
    · cases compares
  · cases compares

theorem bareBut_of_isLoneJump {node : Node} (jumps : isLoneJump node = true) :
    BareBut .b node.instructions := by
  unfold isLoneJump at jumps
  split at jumps
  · next jump isJump =>
    rw [isJump]
    refine ⟨List.forall_mem_nil _, fun inst last _ => ?_⟩
    exact Option.some.inj last ▸ eq_of_beq jumps
  · exact absurd jumps Bool.false_ne_true

structure Recovery.Claims.Known (claims : Claims) (graph : FlowGraph) : Prop where
  compares : ∀ location ∈ claims.switches, ∀ block ∈ location.compareBlocks,
    BareBut .bt (graph.node block).instructions
  jumps : ∀ location ∈ claims.switches, BareBut .b (graph.node location.jumpBlock).instructions
  blocks : ∀ block ∈ claims.blocks, ∃ location ∈ claims.switches, block ∈ location.branches

theorem Recovery.Claims.Known.later (known : claims.Known graph)
    (bounds : ∀ id ∈ claims.nodes, id < graph.size) (grows : Grows graph next) : claims.Known next := by
  refine ⟨fun location member block among => ?_, fun location member => ?_, known.blocks⟩
  · refine grows.bareBut (known.compares location member block among) (bounds _ (Claims.mem_nodes member ?_))
    simp [SwitchLocation.nodes, among]
  · exact grows.bareBut (known.jumps location member) (bounds _ (Claims.jumpBlock_mem_nodes member))

theorem Recovery.Claims.Extends.known (extended : Claims.Extends graph {} claims)
    (init : ∀ id, Bare (graph.node id).instructions.dropLast) : claims.Known graph := by
  have located (location : SwitchLocation) (member : location ∈ claims.switches) : location.Located graph :=
    (extended.switches location member).resolve_left List.not_mem_nil
  refine ⟨fun location member block among => ?_, fun location member => ?_, fun block member => ?_⟩
  · obtain ⟨target, isTarget, -⟩ := (located location member).found.exists_target among
    exact bareBut_of_caseTarget? (init block) (by simp [isTarget])
  · exact bareBut_of_isLoneJump (located location member).found.jumps
  · exact (extended.blocks block member).resolve_left List.not_mem_nil

/-- Once conditionals are built, the branch of a block is claimed or guards initializers, unless
there is none. -/
theorem claimed_or_guard {context : Context} {block : NodeId}
    (init : Bare (context.graph.node block).instructions.dropLast)
    (none : leftoverFailure? source context claims block = none) :
    Bare (context.graph.node block).instructions ∨ block ∈ claims.blocks ∨
      (source.features.has .staticInit = true ∧
        isStaticGuard (context.graph.node block) = true ∧
        BareBut .bt (context.graph.node block).instructions) := by
  cases last : (context.graph.node block).last? with
  | none =>
    rw [Node.last?, List.getLast?_eq_none_iff] at last
    exact .inl (last ▸ List.forall_mem_nil _)
  | some inst =>
    have only (opcode : Opcode) (same : inst.isBranch = true → inst.opcode = opcode) :
        BareBut opcode (context.graph.node block).instructions :=
      ⟨init, fun other isLast => Option.some.inj (last.symm.trans isLast) ▸ same⟩
    cases isBranch : inst.isBranch with
    | false =>
      refine .inl ((only .b (by simp [isBranch])).bare fun other isLast => ?_)
      exact Option.some.inj (last.symm.trans isLast) ▸ isBranch
    | true =>
      simp only [leftoverFailure?, last, isBranch, isReserved, Option.bind_some, Bool.true_and] at none
      simp only [ite_eq_right_iff, reduceCtorEq, imp_false, Bool.not_eq_true', Bool.not_eq_false,
        Bool.or_eq_true, Bool.and_eq_true, beq_iff_eq] at none
      rcases none with claimed | ⟨⟨isGuard, feature⟩, guards⟩
      · exact .inr (.inl (List.contains_iff_mem.mp claimed))
      · exact .inr (.inr ⟨feature, guards, only .bt fun _ => isGuard⟩)

/-- Once switches are inserted and initializers wrapped, what the conditionals left is gone. -/
theorem allBare_of_passes {session inserted : Session} {rights less : Rights}
    (sound : session.Sound) (init : ∀ id, Bare (session.graph.node id).instructions.dropLast)
    (known : session.claims.Known session.graph)
    (leftovers : ∀ block ∈ session.blocks, leftoverFailure? source session.context session.claims block = none)
    (toInserted : Edits rights session inserted) (whole : ¬rights.cuts)
    (settles : ∀ location ∈ session.claims.switches, location.Settles session.graph inserted.graph)
    (toFinal : Edits less inserted final) (settled : ¬less.cuts)
    (wraps : source.features.has .staticInit = true → ∀ block ∈ inserted.blocks,
      isStaticGuard (inserted.graph.node block) = true →
        BareBut .bt (inserted.graph.node block).instructions → Bare (final.graph.node block).instructions) :
    AllBare final.graph := by
  intro id
  cases isBlock : (session.graph.node id).kind.isBlock with
  | false =>
    rw [← toInserted.isBlock_eq whole, ← toFinal.isBlock_eq settled] at isBlock
    rw [Node.instructions_of_not_isBlock isBlock]
    exact List.forall_mem_nil _
  | true =>
    have listed := (sound.blocks id).mpr isBlock
    have bound := lt_size_of_isBlock isBlock
    have lasts (bare : Bare (inserted.graph.node id).instructions) : Bare (final.graph.node id).instructions :=
      toFinal.grows.bare bare (toInserted.lt bound)
    rcases claimed_or_guard (init id) (leftovers id listed) with bare | claimed | ⟨feature, guards, only⟩
    · exact lasts (toInserted.grows.bare bare bound)
    · obtain ⟨location, member, among⟩ := known.blocks id claimed
      rcases List.mem_append.mp among with compares | jumps
      · exact lasts ((settles location member).compares id compares
          (known.compares location member id compares))
      · rw [List.mem_singleton.mp jumps] at lasts ⊢
        exact lasts ((settles location member).jump (known.jumps location member))
    · rcases guard_or_bare guards only (toInserted.grows.nodes id bound) with still | bare
      · refine wraps feature id ?_ still (toInserted.grows.bareBut only bound)
        rw [toInserted.blocks_eq whole]
        exact listed
      · exact lasts bare

structure Recovery.Session.Complete (source : Source) (session : Session) : Prop where
  cut : CutFrom (sliceAt (cutPoints source.code) source.code.instructions) session.context
  rooted : session.root.isSome = true
  bare : AllBare session.graph
  code : HoldsCode source session.graph

/-- A run on code in order leaves no branch if it gets to its end. -/
theorem revises_run (source : Source) (options : RunOptions) (ordered : InOrder source.code.instructions) :
    Revises .full (run source options Pass.standard) {} fun outcome final =>
      outcome.stoppedEarly = false → final.Complete source := by
  refine .bind (revises_clearClaims {}) fun _ start _ _ isStart => ?_
  subst isStart
  refine revises_runPasses_cons cuttingRights
    (fun context _ => CutFrom source.code.slices context ∧ context.graph.JumpsLand)
    (.imp (revises_buildBlocks trivial) fun _ _ done => ⟨done.1 rfl, done.2 jumpsLand_empty⟩)
    ?_
  rintro _ blocks _ toBlocks ⟨cut, lands⟩
  have laid := cut.laid toBlocks ordered lands
  refine revises_runPasses_cons fragmentRights (fun context _ => context.root.isSome = true)
    (.imp revises_buildFragments fun _ _ done => done.1) fun _ fragments sound toFragments rooted => ?_
  obtain ⟨root, isRoot⟩ := Option.isSome_iff_exists.mp rooted
  have cut := cut.later toFragments id
  have unclaimed : fragments.claims = {} := (toFragments.claims_eq id).trans (toBlocks.claims_eq id)
  refine revises_runPasses_cons { Rights.none with claims := True }
    (fun context claims => context = fragments.context ∧ fragments.claims.Extends fragments.graph claims)
    (revises_locateSwitches trivial) fun _ located locatedSound toLocated same => ?_
  obtain ⟨sameContext, extended⟩ := same
  rw [unclaimed] at extended
  have known : located.claims.Known located.graph := by
    rw [sameContext]
    exact extended.known (cut.bare_dropLast sound ordered)
  rw [← sameContext] at cut
  refine revises_runPasses_cons Rights.full.settled (fun _ claims => claims = located.claims)
    (.imp (revises_buildLoops ⟨trivial, trivial⟩ id id fun _ _ _ => trivial)
      fun _ _ done => done.1) fun _ loops loopsSound toLoops sameClaims => ?_
  refine revises_runPasses_cons Rights.full.settled
    (fun context claims => claims = loops.claims ∧
      ∀ block ∈ context.blocks, leftoverFailure? source context claims block = none)
    (.imp (revises_buildConditionals trivial fun _ _ _ => trivial) fun _ _ done =>
      ⟨done.1, done.2.1⟩) ?_
  rintro _ branches branchesSound toBranches ⟨keptClaims, leftovers⟩
  have toBranches := toLoops.trans toBranches
  have sameClaims := keptClaims.trans sameClaims
  have cut := cut.later toBranches id
  have known := known.later locatedSound.claims toBranches.grows
  refine revises_runPasses_cons
    { Rights.none with encloses := True, claims := True }
    (fun context _ => ∀ location ∈ branches.claims.switches, location.Settles branches.graph context.graph)
    (.imp (revises_insertSwitches trivial trivial) fun _ _ done => done.2)
    fun _ inserted insertedSound toInserted settles => ?_
  refine revises_runPasses_cons { Rights.none with encloses := True }
    (fun context _ => source.features.has .staticInit = true → ∀ block ∈ inserted.blocks,
      isStaticGuard (inserted.graph.node block) = true →
        BareBut .bt (inserted.graph.node block).instructions → Bare (context.graph.node block).instructions)
    (revises_buildStaticInits trivial) fun _ final finalSound toFinal wraps => ?_
  have bare := allBare_of_passes branchesSound (cut.bare_dropLast branchesSound ordered)
    (sameClaims ▸ known) leftovers toInserted id settles toFinal id wraps
  have cut := (cut.later toInserted id).later toFinal id
  have rooted : final.root.isSome = true := by
    rw [toFinal.root_eq (toInserted.root_eq (toBranches.root_eq (toLocated.root_eq isRoot)))]
    rfl
  exact revises_runPasses_nil bare ⟨cut, rooted, bare, cut.holdsCode finalSound ordered⟩

/-! Failures -/

theorem run_bind_eq_ok {α β : Type} {step : Recover α} {rest : α → Recover β} {value : β} :
    (step >>= rest).run session = .ok value final ↔
      ∃ first next, step.run session = .ok first next ∧ (rest first).run next = .ok value final := by
  change EStateM.bind step rest session = _ ↔ ∃ first next, step session = _ ∧ _
  unfold EStateM.bind
  cases step session with
  | ok first next => simp [EStateM.run]
  | error failure next => simp

theorem run_bind_of_ok {α β : Type} {step : Recover α} {rest : α → Recover β} {first : α}
    {next : Session} (ok : step.run session = .ok first next) :
    (step >>= rest).run session = (rest first).run next := by
  change EStateM.bind step rest session = _
  rw [EStateM.run] at ok
  rw [EStateM.bind, ok]
  rfl

/-- If all passes succeed, a run that is not to stop early ends with the check for branches. -/
theorem run_runPasses_of_ok {verify : Bool} {passes : List Pass} {changes : List Bool}
    (succeed : (passes.mapM (applyPass source verify)).run session = .ok changes final) :
    ∃ all, (runPasses source { verify } changed passes).run session =
      match final.graph.remainingJump? with
      | some jump => .error (.invariant "final" (.jump jump)) final
      | none => .ok { stoppedEarly := false, changed := all } final := by
  induction passes generalizing session changed changes with
  | nil =>
    cases succeed
    refine ⟨changed, ?_⟩
    rw [runPasses, run_getGraph_bind]
    cases final.graph.remainingJump? <;> rfl
  | cons pass rest ih =>
    rw [List.mapM_cons] at succeed
    obtain ⟨did, next, applied, succeed⟩ := run_bind_eq_ok.mp succeed
    obtain ⟨more, last, succeed, same⟩ := run_bind_eq_ok.mp succeed
    cases same
    rw [runPasses, run_bind_of_ok applied]
    exact ih succeed

theorem Recovery.Failure.eq_of_isExpected {failure : Failure} (expected : failure.isExpected = true) :
    (∃ range cause, failure = .malformed range cause) ∨
      (∃ range cause, failure = .unsupported range cause) ∨ failure = .negativeExtent := by
  cases failure with
  | malformed range cause => exact .inl ⟨range, cause, rfl⟩
  | unsupported range cause => exact .inr (.inl ⟨range, cause, rfl⟩)
  | invariant pass violation => exact absurd expected Bool.false_ne_true
  | negativeExtent => exact .inr (.inr rfl)

/-- Assembled code is found to be malformed or unsupported, or its loops have no order, but the
fault is never with the passes. If they all succeed, no branch is left in any block. -/
theorem malformed_or_unsupported_of_assemble {name listing : String} {code : Code}
    (assembled : Assembly.assemble name listing = .ok code) (features : Features) :
    (∀ options failure final, (run ⟨code, features⟩ options Pass.standard).run {} = .error failure final →
      (∃ range cause, failure = .malformed range cause) ∨
        (∃ range cause, failure = .unsupported range cause) ∨ failure = .negativeExtent) ∧
    (∀ verify changes final,
      (Pass.standard.mapM (applyPass ⟨code, features⟩ verify)).run {} = .ok changes final →
      final.graph.remainingJump? = none ∧
        ∀ id, ∀ inst ∈ (final.graph.node id).instructions, inst.isBranch = false) := by
  have ordered := Assembly.inOrder_of_assemble assembled
  have ends (options : RunOptions) :=
    (revises_run ⟨code, features⟩ options ordered).ends Session.sound_empty
  unfold Ends at ends
  constructor
  · intro options failure final failed
    have ends := ends options
    rw [failed] at ends
    exact Failure.eq_of_isExpected ends.2
  · intro verify changes final succeed
    obtain ⟨all, result⟩ := run_runPasses_of_ok succeed
    have ends := ends { verify }
    have begins : (run ⟨code, features⟩ { verify } Pass.standard).run {} =
      (runPasses ⟨code, features⟩ { verify } [] Pass.standard).run {} := rfl
    rw [begins, result] at ends
    cases remains : final.graph.remainingJump? with
    | some jump =>
      rw [remains] at ends
      exact absurd ends.2 Bool.false_ne_true
    | none =>
      rw [remains] at ends
      exact ⟨rfl, (ends.2 rfl).bare⟩

def guardedSwitch : String :=
  "isstaticok.e\nbt [done]\npushi.e 1\npopz.v\n:[done]\nsetstatic.e\npush.v self.x\ndup.v 0\n"
    ++ "pushi.e 1\ncmp.i.v EQ\nbt [one]\nb [end]\n:[one]\nb [end]\n:[end]\npopz.v\nexit.i"

theorem remainingJump?_guardedSwitch :
    ∃ code changes final, Assembly.assemble "guarded" guardedSwitch = .ok code ∧
      (Pass.standard.mapM (applyPass ⟨code, .all⟩ true)).run {} = .ok changes final ∧
      final.switches ≠ [] ∧ final.staticInits ≠ [] ∧
      final.graph.remainingJump? = none := by
  obtain ⟨code, changes, final, assembled, succeed, switches, staticInits⟩ :=
    exists_of_evaluates "guarded" guardedSwitch
      (fun code => (Pass.standard.mapM (applyPass ⟨code, .all⟩ true)).run {})
      (fun _ _ final => final.switches ≠ [] ∧ final.staticInits ≠ []) (by decide +kernel)
  have complete := malformed_or_unsupported_of_assemble assembled .all
  exact ⟨code, changes, final, assembled, succeed, switches, staticInits,
    (complete.2 true changes final succeed).1⟩

/-! Layout -/

theorem returns_blocks (ordered : InOrder source.code.instructions) (verify : Bool) :
    Returns (applyPass source verify Pass.blocks) {} fun _ blocks =>
      blocks.Sound ∧ Edits cuttingRights {} blocks ∧ CutFrom source.code.slices blocks.context ∧
        blocks.graph.JumpsLand ∧ blocks.context.Blocked source.code.slices := by
  have cuts : Revises cuttingRights (applyPass source verify Pass.blocks) {} _ := .applyPass
    (fun context _ => CutFrom source.code.slices context ∧ context.graph.JumpsLand)
    (.imp (revises_buildBlocks trivial) fun _ _ done => ⟨done.1 rfl, done.2 jumpsLand_empty⟩) verify
  have wired : Returns (applyPass source verify Pass.blocks) {} _ := .applyPass
    (fun context _ => context.Blocked source.code.slices)
    (.imp (reaches_buildBlocks ordered.rising rfl fun never => absurd trivial never) fun _ _ done => done.2.2)
    (fun never => absurd trivial never) verify
  refine .imp (.and (.of_revises cuts Session.sound_empty) wired) ?_
  rintro _ blocks ⟨⟨sound, edits, cut, lands⟩, blocked⟩
  exact ⟨sound, edits, cut, lands, blocked⟩

/-- The ranges of blocks go from one place where the code is cut to the next. -/
theorem Recovery.Context.Blocked.tiled (blocked : session.context.Blocked source.code.slices) (sound : session.Sound)
    (rising : Rising source.code.instructions) (increasing : session.context.Increasing) : session.Tiled source := by
  have slice {block : NodeId} (isBlock : (session.graph.node block).kind.isBlock = true) :
      ∃ slice ∈ source.code.slices, (session.graph.node block).start = slice.1.start ∧
        (session.graph.node block).stop = slice.1.stop := by
    have member := (sound.blocks block).mpr isBlock
    rw [blocked.blocks_eq] at member
    have inside := List.mem_range.mp member
    have core := blocked.core block inside
    exact ⟨_, List.getElem_mem inside, congrArg Node.start core, congrArg Node.stop core⟩
  constructor
  · intro block other isBlock isOther before
    obtain ⟨first, isFirst, start, stop⟩ := slice isBlock
    obtain ⟨second, isSecond, _, beyond⟩ := slice isOther
    rw [start, beyond] at before
    rw [stop, beyond]
    exact (isSlice_cutPoints rising isFirst).next _ (stop_mem_cuts isSecond) before
  · intro block isBlock inst member target goes before
    obtain ⟨first, isFirst, start, stop⟩ := slice isBlock
    rw [start] at before
    rw [stop]
    exact (isSlice_cutPoints rising isFirst).next _ (target_mem_cutPoints member goes) before
  · intro block after found
    have inside : block < source.code.slices.length := by
      have member := (sound.blocks block).mpr (isBlock_of_nextBlock? found)
      rw [blocked.blocks_eq] at member
      exact List.mem_range.mp member
    obtain ⟨parts, isParts, listed⟩ := Option.bind_eq_some_iff.mp found
    have index : parts.index = block := by
      have kind : (session.graph.node block).kind = (blockNode block source.code.slices[block]).kind :=
        (congrArg Node.kind (blocked.core block inside) :)
      rw [Node.block?, kind] at isParts
      exact congrArg Block.index (Option.some.inj isParts).symm
    rw [index, blocked.blocks_eq] at listed
    obtain ⟨beyond, rfl⟩ := List.getElem?_eq_some_iff.mp listed
    rw [Context.Increasing, blocked.blocks_eq] at increasing
    have ordered := List.pairwise_iff_getElem.mp increasing block (block + 1) (by simpa using inside) beyond
      (Nat.lt_succ_self block)
    rwa [List.getElem_range] at ordered

/-- A session whose blocks are listed by the fragments that they are directly inside of. -/
structure Recovery.Session.Opened (source : Source) (session : Session) : Prop where
  sound : session.Sound
  cut : CutFrom (sliceAt (cutPoints source.code) source.code.instructions) session.context
  listed : ∀ fragment, (fragmentBlocks session.graph fragment).Sublist session.blocks
  level : ∀ fragment, ∀ block ∈ fragmentBlocks session.graph fragment,
    (session.graph.node block).parent = some fragment
  unclaimed : session.claims = {}
  traced : Traced source session
  tiled : session.Tiled source

theorem Recovery.Session.Opened.nested (opened : session.Opened source) : session.Nested := by
  intro fragment block member
  exact ⟨(opened.sound.blocks block).mp ((opened.listed fragment).subset member),
    .here (opened.level fragment block member)⟩

/-- When fragments have been found, their blocks are directly inside them. -/
theorem returns_layout (ordered : InOrder source.code.instructions) (verify : Bool) :
    Returns (applyPass source verify Pass.blocks) {} fun _ blocks =>
      Returns (applyPass source verify Pass.fragments) blocks fun _ laid => laid.Opened source := by
  refine .imp (returns_blocks ordered verify) ?_
  rintro _ blocks ⟨sound, edits, cut, lands, blocked⟩
  have founds : Revises fragmentRights (applyPass source verify Pass.fragments) blocks _ := .applyPass
    (fun context claims => Session.Founded source { context, claims })
    (.imp revises_buildFragments fun _ _ done => (done.2 (cut.laid edits ordered lands)).of_same rfl rfl) verify
  refine .imp (.of_revises founds sound) ?_
  rintro _ laid ⟨laidSound, toLaid, founded⟩
  exact ⟨laidSound, cut.later toLaid id, founded.listed, founded.level,
    (toLaid.claims_eq id).trans (edits.claims_eq id), founded.traced.of_same rfl rfl,
    (blocked.tiled sound ordered.rising cut.increasing).later toLaid id sound⟩

/-- A run that goes beyond the first pass finds blocks, then fragments, and goes on from there unless
it is to stop. -/
theorem layout_of_run {outcome : RunOutcome} (later : options.dumpAfter ≠ some Pass.blocks.name)
    (done : (run source options Pass.standard).run {} = .ok outcome final) :
    ∃ cut blocks found laid, (applyPass source options.verify Pass.blocks).run {} = .ok cut blocks ∧
      (applyPass source options.verify Pass.fragments).run blocks = .ok found laid ∧
      (options.dumpAfter = some Pass.fragments.name → final = laid) ∧
      (options.dumpAfter ≠ some Pass.fragments.name → ∃ changed,
        (runPasses source options changed (Pass.standard.drop 2)).run laid = .ok outcome final) := by
  obtain ⟨_, start, same, done⟩ := run_bind_eq_ok.mp done
  cases same
  obtain ⟨cut, blocks, cuts, done⟩ := run_bind_eq_ok.mp done
  rw [if_neg later] at done
  obtain ⟨found, laid, founds, done⟩ := run_bind_eq_ok.mp done
  dsimp only at done
  refine ⟨cut, blocks, found, laid, cuts, founds, fun stops => ?_, fun goesOn => ?_⟩
  · rw [if_pos stops] at done
    cases done
    rfl
  · rw [if_neg goesOn] at done
    exact ⟨_, done⟩

theorem stoppedEarly_of_runPasses {options : RunOptions} {changed : List String} {passes : List Pass}
    (never : options.dumpAfter = none)
    (done : (runPasses source options changed passes).run session = .ok outcome final) :
    outcome.stoppedEarly = false := by
  induction passes generalizing session changed with
  | nil =>
    rw [runPasses, run_getGraph_bind] at done
    split at done
    · cases done
    · cases done
      rfl
  | cons pass rest ih =>
    obtain ⟨did, next, _, done⟩ := run_bind_eq_ok.mp done
    dsimp only at done
    rw [if_neg (by simp [never])] at done
    exact ih done

theorem ends_structureEntry (ordered : InOrder source.code.instructions)
    (done : structureEntry source = .ok outcome final) : Edits .full {} final ∧ final.Complete source := by
  have ends := (revises_run source {} ordered).ends Session.sound_empty
  rw [structureEntry] at done
  unfold Ends at ends
  rw [done] at ends
  obtain ⟨_, next, _, ran⟩ := run_bind_eq_ok.mp done
  exact ⟨ends.1, ends.2 (stoppedEarly_of_runPasses rfl ran)⟩

end Structuring
