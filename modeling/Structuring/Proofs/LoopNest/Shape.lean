import Structuring.Proofs.LoopNest.Scaffolding

/-! The shapes of loops that are built from the inside out.

When a loop is to be shaped, its scaffolding is in place, and no jump is left inside it apart from its
own: so every shape succeeds, and takes out the branches of its loop and nothing else.
-/

namespace Structuring.LoopNest

open Bytecode Recovery FlowGraph

variable {typed : Bool} {loops : List PlacedLoop} {blocks : List BlockPlan} {finish index other : Nat}
  {loop : PlacedLoop} {gone : List PlacedLoop} {ending : List Instruction} {role : Role} {exits : LoopExits}
  {after : Session} {context : Context} {original graph : FlowGraph} {done : List Nat}

/-- While a loop is not built, a block that holds its branch goes where the branch does. -/
theorem Arranged.last_remains (arranged : Arranged typed loops blocks finish) (inside : index < blocks.length)
    (isScaffold : blocks[index].scaffold = some ⟨loop, role, ending⟩) (undone : loop ∉ gone)
    {opcode : Opcode} {target : Nat} (isBranch : branchOf loop role = some (opcode, target)) :
    ∃ last, (blocks[index].remains gone).getLast? = some last ∧ last.opcode = opcode ∧
      last.branchTarget? = some target := by
  obtain ⟨_, isEnding, _⟩ := arranged.scaffold_at inside isScaffold
  obtain ⟨last, _, _, isLast, same, sameOpcode, goes⟩ := isEnding.branchTarget?
  cases isBranch.symm.trans same
  refine ⟨last, ?_, sameOpcode, goes⟩
  rw [arranged.remains_scaffold inside isScaffold undone, List.getLast?_append, isLast, Option.some_or]

/-! Jumps inside -/

theorem jumpTarget?_eq_none (arranged : Arranged typed loops blocks finish)
    (ready : Ready loops gone loop) {later : List PlacedLoop} (more : ∀ other ∈ gone, other ∈ later)
    (inside : index < blocks.length)
    (within : loop.start ≤ blocks[index].start ∧ blocks[index].start < loop.stop)
    (turned : ∀ ending, blocks[index].scaffold = some ⟨loop, .tail, ending⟩ → loop ∈ later) {node : Node}
    (holds : node.instructions = blocks[index].remains later) : node.jumpTarget? = none := by
  refine Option.eq_none_iff_forall_ne_some.mpr fun target goes => ?_
  obtain ⟨inst, isLast, goes⟩ := Option.bind_eq_some_iff.mp goes
  rw [Node.last?, holds] at isLast
  unfold Instruction.targetOf? at goes
  split at goes
  · next isJump =>
    have fits := arranged.fits _ (List.getElem_mem inside)
    obtain ⟨scaffold, opcode, isScaffold, undone, _, same, isBranch⟩ := fits.scaffold_of_target isLast goes
    obtain ⟨member, _⟩ := fits.scaffold scaffold isScaffold
    obtain ⟨other, role, ending⟩ := scaffold
    have isTail : role = .tail := by
      have jumps : opcode = .b := same ▸ eq_of_beq isJump
      dsimp only at isBranch
      unfold branchOf at isBranch
      split at isBranch <;> simp_all
    subst isTail
    have different : other ≠ loop := by
      rintro rfl
      exact undone (turned ending isScaffold)
    have relation := ready.of_unbuilt arranged.laminar member (fun early => undone (more other early)) different
    exact (arranged.branch_crossing ready.member inside isScaffold isBranch relation).1 within
  · cases goes

theorem reaches_convertJumps {mayFail : Prop} {session : Session} {fragment : NodeId}
    (none : ∀ block ∈ blocksWithin session.graph fragment exits.start exits.stop,
      (session.graph.node block).jumpTarget? = none) :
    Reaches (fun _ => mayFail) (convertJumps fragment exits) session fun _ next => next = session := by
  refine .getGraph_bind (.forM (· = session) rfl fun block member next same => ?_)
  subst same
  refine .getGraph_bind ?_
  rw [none block member]
  exact .pure rfl

/-! A loop at its turn -/

structure Pending (typed : Bool) (loops : List PlacedLoop) (blocks : List BlockPlan) (finish : Nat)
    (built : List (PlacedLoop × NodeId)) (loop : PlacedLoop) (candidate : Candidate) (session : Session) :
    Prop where
  arranged : Arranged typed loops blocks finish
  ready : Ready loops (built.map (·.1)) loop
  staged : Staged blocks built (built.map (·.1)) session.graph
  agree : session.graph.Mutual
  listed : session.blocks = List.range blocks.length
  unclaimed : session.claims = {}
  start : candidate.start = loop.start
  stop : candidate.stop = loop.stop
  head : ∃ inside : candidate.head < blocks.length, blocks[candidate.head].start = loop.start
  tail : Bears blocks loop .tail candidate.tail

structure ShapedAs (blocks : List BlockPlan) (built : List (PlacedLoop × NodeId)) (loop : PlacedLoop)
    (tail : Nat) (session : Session) (shaped : ShapedLoop) (next : Session) : Prop where
  frame : next = session.withGraph next.graph
  keeps : Keeps session.graph next.graph
  size : next.graph.size = session.graph.size
  staged : Staged blocks built (built.map (·.1) ++ [loop]) next.graph
  cleared : (next.graph.node tail).successors = []
  family : familyOf shaped.shape = loop.shape
  stop : shaped.stop = loop.stop
  exit : ∀ exit, shaped.exit = some exit → exit = tail + 1

theorem Arranged.has_of_scaffold (arranged : Arranged typed loops blocks finish)
    (inside : index < blocks.length)
    (isScaffold : blocks[index].scaffold = some ⟨loop, role, ending⟩) : (branchOf loop role).isSome = true := by
  obtain ⟨_, isEnding, _⟩ := arranged.scaffold_at inside isScaffold
  obtain ⟨_, opcode, target, _, isBranch, _⟩ := isEnding.branches
  exact Option.isSome_iff_exists.mpr ⟨_, isBranch⟩

theorem Arranged.eq_of_scaffold (arranged : Arranged typed loops blocks finish)
    (inside : index < blocks.length) (inside' : other < blocks.length)
    {ending' : List Instruction} (isScaffold : blocks[index].scaffold = some ⟨loop, role, ending⟩)
    (isOther : blocks[other].scaffold = some ⟨loop, role, ending'⟩) : index = other := by
  obtain ⟨_, _, holds⟩ := arranged.scaffold_at inside isScaffold
  obtain ⟨_, _, holds'⟩ := arranged.scaffold_at inside' isOther
  have next := arranged.next_of_scaffold inside isScaffold
  have next' := arranged.next_of_scaffold inside' isOther
  cases role with
  | prelude => exact arranged.eq_of_stop_eq next next' (Eq.trans holds (Eq.symm holds'))
  | condition => exact arranged.eq_of_start_eq inside inside' (Eq.trans holds (Eq.symm holds'))
  | tail => exact arranged.eq_of_stop_eq next next' (holds.1.trans holds'.1.symm)

theorem Trimmed.nextBlock? (trimmed : Trimmed blocks gone loop original done context.graph)
    (listed : context.blocks = List.range blocks.length) (inside : index < blocks.length) :
    context.nextBlock? index = (List.range blocks.length)[index + 1]? := by
  rw [Context.nextBlock?, Node.block?, trimmed.kinds index inside, listed]
  rfl

theorem Trimmed.exit (trimmed : Trimmed blocks gone loop original done context.graph)
    (listed : context.blocks = List.range blocks.length) (inside : index < blocks.length) {exit : NodeId}
    (isExit : context.nextBlock? index = some exit) : exit = index + 1 := by
  rw [trimmed.nextBlock? listed inside] at isExit
  obtain ⟨_, rfl⟩ := List.getElem?_eq_some_iff.mp isExit
  rw [List.getElem_range]

namespace Pending

variable {built : List (PlacedLoop × NodeId)} {candidate : Candidate} {session : Session} {opcode : Opcode}
  {target : Nat} (pending : Pending typed loops blocks finish built loop candidate session)

include pending

theorem unbuilt :
    loop ∉ built.map (·.1) := pending.ready.fresh

theorem trimmed : Trimmed blocks (built.map (·.1)) loop session.graph [] session.graph :=
  pending.staged.trimmed loop

/-- The one instruction of a loop at the end of a block, and the block without it. -/
theorem single (shape : loop.shape ≠ .repeatLoop) (inside : index < blocks.length)
    (isScaffold : blocks[index].scaffold = some ⟨loop, role, ending⟩) :
    (blocks[index].remains (built.map (·.1))).getLast?.map (·.opcode) = (branchOf loop role).map (·.1) ∧
      (blocks[index].remains (built.map (·.1))).dropLast = blocks[index].remains (built.map (·.1) ++ [loop]) := by
  obtain ⟨_, isEnding, _⟩ := pending.arranged.scaffold_at inside isScaffold
  obtain ⟨last, opcode, target, isLast, isBranch, same, _⟩ := isEnding.branches
  obtain ⟨only, isOnly⟩ := List.length_eq_one_iff.mp (isEnding.single shape)
  dsimp only at isLast isBranch isOnly
  subst isOnly
  obtain rfl : only = last := Option.some.inj isLast
  rw [pending.arranged.remains_scaffold inside isScaffold pending.unbuilt, isBranch]
  simp [same]

section

variable (trimmed : Trimmed blocks (built.map (·.1)) loop session.graph done graph)

include trimmed

theorem popIf_eq (shape : loop.shape ≠ .repeatLoop) (bears : Bears blocks loop role index) (undone : index ∉ done)
    (isBranch : branchOf loop role = some (opcode, target)) :
    graph.popIf index opcode = graph.mapInstructions index List.dropLast := by
  obtain ⟨inside, _, isScaffold⟩ := bears
  refine if_pos ?_
  rw [Node.lastOpcode?, Node.last?, trimmed.instructions inside undone, (pending.single shape inside isScaffold).1,
    isBranch]
  rfl

theorem dropBranch (shape : loop.shape ≠ .repeatLoop) (bears : Bears blocks loop role index)
    (undone : index ∉ done) (isBranch : branchOf loop role = some (opcode, target)) :
    Trimmed blocks (built.map (·.1)) loop session.graph (index :: done) (graph.dropBranch index opcode) := by
  rw [FlowGraph.dropBranch, pending.popIf_eq trimmed shape bears undone isBranch]
  refine trimmed.trim_branch bears undone (fun inside => ?_) (sameCores_clearSuccessors _ index)
    (successors_clearSuccessors _ index) (List.forall_mem_nil _)
  obtain ⟨_, _, isScaffold⟩ := bears
  exact (pending.single shape inside isScaffold).2

theorem noJumps (turned : candidate.tail ∈ done) :
    ∀ block ∈ blocksWithin graph blocks.length loop.start loop.stop, (graph.node block).jumpTarget? = none := by
  intro block member
  obtain ⟨listed, within⟩ := List.mem_filter.mp member
  have inside : block < blocks.length := by
    rw [trimmed.fragmentBlocks_eq _ (Nat.le_refl _), pending.staged.listed] at listed
    exact List.mem_range.mp listed
  rw [startsWithin_eq, (pending.staged.owned.later trimmed.keeps).start block inside, PlacedLoop.contains_iff] at within
  obtain ⟨tailInside, _, isTail⟩ := pending.tail
  refine jumpTarget?_eq_none pending.arranged pending.ready (fun other early => ?_) inside within
    (fun _ isOther => ?_) (by rw [Node.instructions, trimmed.kinds block inside])
  · split
    · exact List.mem_append_left _ early
    · exact early
  · obtain rfl := pending.arranged.eq_of_scaffold inside tailInside isOther isTail
    rw [if_pos turned]
    exact List.mem_append_right _ (.head _)

end

theorem reaches_convertJumps (trimmed : Trimmed blocks (built.map (·.1)) loop session.graph done after.graph)
    (turned : candidate.tail ∈ done) (start : exits.start = loop.start) (stop : exits.stop = loop.stop) :
    Succeeds (convertJumps blocks.length exits) after fun _ final => final = after := by
  refine LoopNest.reaches_convertJumps ?_
  rw [start, stop]
  exact pending.noJumps trimmed turned

theorem shapedAs (frame : after = session.withGraph after.graph)
    (trimmed : Trimmed blocks (built.map (·.1)) loop session.graph done after.graph)
    (branches : ∀ role, (branchOf loop role).isSome = true → ∃ index ∈ done, Bears blocks loop role index)
    (leads : loop.shape = .repeatLoop → candidate.tail + 1 ∈ done) {shaped : ShapedLoop}
    (family : familyOf shaped.shape = loop.shape) (stop : shaped.stop = loop.stop)
    (exit : ∀ exit, shaped.exit = some exit → exit = candidate.tail + 1) :
    ShapedAs blocks built loop candidate.tail session shaped after := by
  have arranged := pending.arranged
  have all (index : Nat) (role : Role) (bears : Bears blocks loop role index) : index ∈ done := by
    obtain ⟨inside, _, isScaffold⟩ := bears
    obtain ⟨other, member, inside', _, isOther⟩ := branches role (arranged.has_of_scaffold inside isScaffold)
    exact arranged.eq_of_scaffold inside inside' isScaffold isOther ▸ member
  refine ⟨frame, trimmed.keeps, trimmed.size, trimmed.staged arranged pending.staged pending.agree all ?_, ?_,
    family, stop, exit⟩
  · intro index inside discard isLead
    obtain ⟨_, shape, start, _⟩ := (arranged.fits _ (List.getElem_mem inside)).lead _ _ isLead
    obtain ⟨tailInside, _, isTail⟩ := pending.tail
    obtain ⟨next, behind⟩ := arranged.behind tailInside isTail
    exact arranged.eq_of_start_eq inside next (start.trans behind.symm) ▸ leads shape
  · exact List.eq_nil_iff_forall_not_mem.mpr fun target member =>
      (trimmed.own _ (all _ _ pending.tail) .tail pending.tail target member).1 rfl

theorem reaches_doUntil (shape : loop.shape = .doUntil) (headTop : NodeId) :
    Succeeds (shapeDoUntil blocks.length candidate headTop) session fun shaped next =>
      ShapedAs blocks built loop candidate.tail session shaped next := by
  obtain ⟨inside, ending, isTail⟩ := pending.tail
  obtain ⟨_, _, tailStop, _⟩ := pending.arranged.scaffold_at inside isTail
  refine .modifyGraph_bind fun cut isCut cutGraph => .getGraph_bind ?_
  have trimmed := pending.dropBranch pending.trimmed (by simp [shape]) pending.tail List.not_mem_nil
    (show branchOf loop .tail = some (.bf, loop.start) by simp [branchOf, shape])
  rw [← cutGraph] at trimmed
  have stop : (cut.graph.node candidate.tail).stop = loop.stop :=
    ((pending.staged.owned.later trimmed.keeps).stop _ inside).trans tailStop
  refine .bind (pending.reaches_convertJumps trimmed (.head _) pending.start stop) fun _ next same =>
    .getContext_bind (.pure ?_)
  subst same
  refine pending.shapedAs (isCut.trans (by rw [cutGraph])) trimmed (fun role has => ?_) (by simp [shape])
    shape.symm stop fun exit isExit => trimmed.exit (isCut ▸ pending.listed) inside isExit
  cases role with
  | tail => exact ⟨_, .head _, pending.tail⟩
  | prelude | condition => simp [branchOf, shape] at has

/-- The condition of a while loop is at its head, on the level of the fragment. -/
theorem condition (shape : loop.shape = .whileLoop) :
    Bears blocks loop .condition candidate.head ∧
      (session.graph.node candidate.head).parent = some blocks.length := by
  obtain ⟨inside, start⟩ := pending.head
  obtain ⟨found, next, ending, isScaffold, _, holds⟩ :=
    pending.arranged.exists_scaffold pending.ready.member (show (branchOf loop .condition).isSome = true by
      simp [branchOf, shape])
  obtain rfl := pending.arranged.eq_of_start_eq inside (Nat.lt_of_succ_lt next) (start.trans (Eq.symm holds))
  refine ⟨⟨inside, ending, isScaffold⟩, ?_⟩
  rw [pending.staged.owned.parent _ inside, start]
  rcases owner_cases blocks.length built loop.start with ⟨_, same⟩ | ⟨entry, member, around, _⟩
  · rw [same]
  · -- No loop inside a while loop starts at its head.
    have listed : entry.1 ∈ built.map (·.1) := List.mem_map_of_mem member
    have heads := pending.arranged.laminar.heads loop pending.ready.member entry.1
      (pending.ready.among _ listed) shape
    have relation := pending.ready.of_built pending.arranged.laminar listed
    have room := pending.arranged.laminar.room loop pending.ready.member
    rw [PlacedLoop.contains_iff] at around
    unfold PlacedLoop.Apart at relation
    rcases relation with apart | inner
    · omega
    · have := heads inner
      omega

theorem find?_condition (shape : loop.shape = .whileLoop)
    (trimmed : Trimmed blocks (built.map (·.1)) loop session.graph done graph) (undone : candidate.head ∉ done) :
    ((blocksWithin graph blocks.length loop.start loop.stop).find? fun block =>
      (graph.node block).parent == some blocks.length &&
        (graph.node block).targetOf? .bf == some loop.stop) = some candidate.head := by
  obtain ⟨⟨inside, ending, isScaffold⟩, level⟩ := pending.condition shape
  obtain ⟨_, start⟩ := pending.head
  have owned := pending.staged.owned.later trimmed.keeps
  have room := pending.arranged.laminar.room loop pending.ready.member
  have listed : fragmentBlocks graph blocks.length = List.range blocks.length :=
    (trimmed.fragmentBlocks_eq _ (Nat.le_refl _)).trans pending.staged.listed
  rw [blocksWithin, listed, List.find?_filter, List.find?_range_eq_some]
  refine ⟨?_, List.mem_range.mpr inside, fun earlier before => ?_⟩
  · have within : (graph.node candidate.head).startsWithin loop.start loop.stop = true := by
      rw [startsWithin_eq, owned.start _ inside, start, PlacedLoop.contains_iff]
      omega
    have goes : (graph.node candidate.head).targetOf? .bf = some loop.stop := by
      obtain ⟨last, isLast, opcode, goes⟩ := pending.arranged.last_remains inside isScaffold pending.unbuilt
        (show branchOf loop .condition = some (.bf, loop.stop) by simp [branchOf, shape])
      rw [Node.targetOf?, Node.last?, trimmed.instructions inside undone, isLast]
      simp [Instruction.targetOf?, opcode, goes]
    have parent : (graph.node candidate.head).parent = some blocks.length :=
      (trimmed.keeps.parent _ (pending.staged.owned.bound inside)).trans level
    simp [within, goes, parent]
  · have earlierInside : earlier < blocks.length := Nat.lt_trans before inside
    have := pending.arranged.start_lt_start before inside
    have outside : (graph.node earlier).startsWithin loop.start loop.stop = false := by
      rw [startsWithin_eq, owned.start _ earlierInside]
      exact Bool.eq_false_iff.mpr fun within => by
        rw [PlacedLoop.contains_iff] at within
        omega
    simp [outside]

theorem reaches_while (shape : loop.shape = .whileLoop) (headTop : NodeId) :
    Succeeds (shapeWhile blocks.length candidate headTop) session fun shaped next =>
      ShapedAs blocks built loop candidate.tail session shaped next := by
  have single : loop.shape ≠ .repeatLoop := by simp [shape]
  obtain ⟨isHead, _⟩ := pending.condition shape
  have undone : candidate.head ∉ [candidate.tail] :=
    fun same => isHead.ne pending.tail (by simp) (List.mem_singleton.mp same)
  unfold shapeWhile
  extract_lets tail start stop
  refine .modifyGraph_bind fun cut isCut cutGraph => .getGraph_bind ?_
  have trimmed := pending.dropBranch pending.trimmed single pending.tail List.not_mem_nil
    (show branchOf loop .tail = some (.b, loop.start) by simp [branchOf, shape])
  rw [← cutGraph] at trimmed
  extract_lets blocks' continuesAtHead condition first hasIncrementor continues
  have found : condition = some candidate.head := by
    have := pending.find?_condition shape trimmed undone
    rwa [← pending.start, ← pending.stop] at this
  clear_value hasIncrementor continues condition
  subst found
  refine .bind (pending.reaches_convertJumps trimmed (.head _) pending.start pending.stop)
    fun _ next same => .getGraph_bind (.modifyGraph_bind fun final isFinal finalGraph =>
      .getContext_bind (.pure ?_))
  subst same
  have trimmed := pending.dropBranch trimmed single isHead undone
    (show branchOf loop .condition = some (.bf, loop.stop) by simp [branchOf, shape])
  rw [← finalGraph] at trimmed
  refine pending.shapedAs ?_ trimmed (fun role has => ?_) (absurd · single) shape.symm pending.stop
    fun exit isExit => ?_
  · rw [finalGraph, isFinal, isCut, Session.withGraph_withGraph]
  · cases role with
    | condition => exact ⟨_, .head _, isHead⟩
    | tail => exact ⟨_, .tail _ (.head _), pending.tail⟩
    | prelude => simp [branchOf, shape] at has
  · have listed : final.blocks = List.range blocks.length := by
      rw [isFinal, isCut, Session.withGraph_blocks, Session.withGraph_blocks, pending.listed]
    exact trimmed.exit listed pending.tail.1 isExit

end Pending

end Structuring.LoopNest
