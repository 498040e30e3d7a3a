import Structuring.Proofs.LoopNest.Shape

/-! The shapes of loops that are entered past a branch.

The block before the head of a repeat loop tests the counter, and the one before the head of a with
loop sets the environment. Either leads on to the head first, so it is the second edge that goes.
-/

namespace Structuring.LoopNest

open Bytecode Recovery FlowGraph

variable {typed : Bool} {loops : List PlacedLoop} {blocks : List BlockPlan} {finish before index : Nat}
  {loop : PlacedLoop} {source : Source}

/-- What is left of instructions when as many are dropped as their ending has. -/
theorem take_append_ending {front ending : List Instruction} {count : Nat} (length : ending.length = count) :
    (front ++ ending).take ((front ++ ending).length - count) = front := by
  rw [List.length_append, length, Nat.add_sub_cancel, List.take_left]

namespace Pending

variable {built : List (PlacedLoop × NodeId)} {candidate : Candidate} {session : Session}

section

variable (pending : Pending typed loops blocks finish built loop candidate session)

include pending

theorem entrance (has : (branchOf loop .prelude).isSome = true) :
    ∃ before, candidate.head = before + 1 ∧ Bears blocks loop .prelude before := by
  obtain ⟨before, next, ending, isScaffold, _, stop⟩ :=
    pending.arranged.exists_scaffold pending.ready.member has
  obtain ⟨headInside, headStart⟩ := pending.head
  have follows : blocks[before + 1].start = loop.start :=
    (pending.arranged.adjacent before next).2.symm.trans stop
  exact ⟨before, pending.arranged.eq_of_start_eq headInside next (headStart.trans follows.symm),
    Nat.lt_of_succ_lt next, ending, isScaffold⟩

/-- Without its branch the block before the head leads on to the head only. -/
theorem halve (bears : Bears blocks loop .prelude before) {f : List Instruction → List Instruction}
    (rest : ∀ inside : before < blocks.length, f (blocks[before].remains (built.map (·.1))) =
      blocks[before].remains (built.map (·.1) ++ [loop])) :
    Trimmed blocks (built.map (·.1)) loop session.graph [before]
      ((session.graph.mapInstructions before f).dropSecondEdge before) := by
  obtain ⟨inside, ending, isScaffold⟩ := bears
  obtain ⟨target, leads⟩ := pending.staged.preludes before inside loop ending isScaffold pending.unbuilt
  obtain ⟨first, seconds, successors, start, isRest⟩ := List.map_eq_cons_iff.mp leads
  obtain ⟨second, none, rfl, _, isNone⟩ := List.map_eq_cons_iff.mp isRest
  obtain rfl := List.map_eq_nil_iff.mp isNone
  refine pending.trimmed.trim_branch ⟨inside, ending, isScaffold⟩ List.not_mem_nil rest
    (sameCores_dropSecondEdge _ before)
    (successors_dropSecondEdge (((sameEdges_mapInstructions f).successors before).trans successors)) ?_
  intro target member
  obtain rfl := List.mem_singleton.mp member
  exact ⟨by simp, pending.agree.target_lt (by rw [successors]; exact .head _),
    start.trans (pending.staged.owned.stop before inside).symm⟩

theorem previousBlock? (inside : before + 1 < blocks.length) :
    session.context.previousBlock? (before + 1) = some before := by
  rw [Context.previousBlock?, Node.block?, pending.staged.kinds _ inside, pending.listed]
  simp [Nat.lt_of_succ_lt inside]

theorem nextBlock? (inside : index + 1 < blocks.length) :
    session.context.nextBlock? index = some (index + 1) := by
  rw [pending.trimmed.nextBlock? pending.listed (Nat.lt_of_succ_lt inside)]
  simp [inside]

/-! Repeat loops -/

theorem discards (shape : loop.shape = .repeatLoop) :
    ∃ (inside : candidate.tail + 1 < blocks.length) (discard : Instruction),
      blocks[candidate.tail + 1].lead = some (loop, discard) ∧ discard.opcode = .popz := by
  obtain ⟨tailInside, ending, isTail⟩ := pending.tail
  obtain ⟨next, behind⟩ := pending.arranged.behind tailInside isTail
  obtain ⟨block, among, discard, isLead⟩ := pending.arranged.exits loop pending.ready.member shape
  obtain ⟨exit, inside, rfl⟩ := List.getElem_of_mem among
  obtain ⟨_, _, start, opcode⟩ := (pending.arranged.fits _ among).lead _ _ isLead
  obtain rfl := pending.arranged.eq_of_start_eq inside next (start.trans behind.symm)
  exact ⟨next, discard, isLead, opcode⟩

end

theorem reaches_repeat
    (pending : Pending (source.features.has .typedBooleans) loops blocks finish built loop candidate session)
    (shape : loop.shape = .repeatLoop) (headTop : NodeId) :
    Succeeds (shapeRepeat source blocks.length candidate headTop) session fun shaped next =>
      ShapedAs blocks built loop candidate.tail session shaped next := by
  have arranged := pending.arranged
  have trimmed := pending.trimmed
  obtain ⟨before, isHead, inside, opening, isBefore⟩ := pending.entrance (by simp [branchOf, shape])
  have bears : Bears blocks loop .prelude before := ⟨inside, opening, isBefore⟩
  obtain ⟨tailInside, turning, isTail⟩ := pending.tail
  obtain ⟨exitInside, discard, isLead, opcode⟩ := pending.discards shape
  obtain ⟨_, opens, _⟩ := arranged.scaffold_at inside isBefore
  obtain ⟨_, turns, _⟩ := arranged.scaffold_at tailInside isTail
  obtain ⟨openingLength, tests⟩ := opens.tests shape rfl
  obtain ⟨turningLength, counts⟩ := turns.counts shape rfl
  -- What the three blocks hold now, and what is to stay.
  have beforeText := arranged.remains_scaffold inside isBefore pending.unbuilt
  have tailText := arranged.remains_scaffold tailInside isTail pending.unbuilt
  have exitText := arranged.remains_lead exitInside isLead pending.unbuilt
  have tailUndone : candidate.tail ∉ [before] :=
    fun same => pending.tail.ne bears (by simp) (List.mem_singleton.mp same)
  have noBranch (role : Role) : ¬Bears blocks loop role (candidate.tail + 1) := by
    rintro ⟨_, _, isOther⟩
    exact arranged.lead_ne_scaffold exitInside isOther isLead rfl
  have exitUndone : candidate.tail + 1 ∉ [candidate.tail, before] := by
    simp only [List.mem_cons, List.not_mem_nil, or_false, not_or]
    exact ⟨Nat.succ_ne_self _, fun same => noBranch .prelude (same ▸ bears)⟩
  unfold shapeRepeat
  extract_lets head tail stop typed
  refine .getContext_bind ?_
  extract_lets graph tested discarded
  have isTested : tested = some before := by
    have previous : session.context.previousBlock? candidate.head = some before := by
      rw [isHead]
      exact pending.previousBlock? (arranged.next_of_scaffold inside isBefore)
    have held : endsInCounterTest (graph.node before).instructions stop = true := by
      rw [trimmed.instructions inside List.not_mem_nil, beforeText, show stop = loop.stop from pending.stop]
      exact tests _
    simp only [tested, head, previous, Option.filter_some, held, if_true]
  have isDiscarded : discarded = some (candidate.tail + 1) := by
    have held : startsWithDiscard (graph.node (candidate.tail + 1)).instructions = true := by
      rw [trimmed.instructions exitInside List.not_mem_nil, exitText]
      simp [startsWithDiscard, opcode]
    simp only [discarded, tail, pending.nextBlock? exitInside, Option.filter_some, held, if_true]
  have counted : endsInDecrement (graph.node tail).instructions typed = true := by
    rw [trimmed.instructions tailInside List.not_mem_nil, tailText]
    exact counts _
  clear_value tested discarded
  subst isTested isDiscarded
  simp only [counted, Bool.not_true, Bool.false_eq_true, ↓reduceIte]
  refine .modifyGraph_bind fun opened isOpened openedGraph => ?_
  refine .modifyGraph_bind fun turned isTurned turnedGraph => ?_
  refine .modifyGraph_bind fun left isLeft leftGraph => ?_
  have trimmed : Trimmed blocks (built.map (·.1)) loop session.graph _ opened.graph :=
    openedGraph ▸ pending.halve bears fun _ => by rw [beforeText, take_append_ending openingLength]
  have trimmed : Trimmed blocks (built.map (·.1)) loop session.graph _ turned.graph :=
    turnedGraph ▸ trimmed.trim_branch pending.tail tailUndone
      (fun _ => by rw [tailText, take_append_ending turningLength]) (sameCores_clearSuccessors _ _)
      (successors_clearSuccessors _ _) (List.forall_mem_nil _)
  have trimmed : Trimmed blocks (built.map (·.1)) loop session.graph [candidate.tail + 1, candidate.tail, before]
      left.graph := by
    rw [leftGraph]
    exact trimmed.trim exitInside exitUndone (by rw [exitText]; rfl) (.refl _)
      (fun id _ => (sameEdges_mapInstructions _).successors id) fun role bears => absurd bears (noBranch role)
  refine .bind (pending.reaches_convertJumps trimmed (.tail _ (.head _)) pending.start pending.stop)
    fun _ next same => .getGraph_bind (.pure ?_)
  subst same
  refine pending.shapedAs ?_ trimmed (fun role has => ?_) (fun _ => .head _) shape.symm pending.stop
    fun exit isExit => (Option.some.inj isExit).symm
  · rw [leftGraph, isLeft, isTurned, isOpened, Session.withGraph_withGraph, Session.withGraph_withGraph]
  · cases role with
    | prelude => exact ⟨_, .tail _ (.tail _ (.head _)), bears⟩
    | tail => exact ⟨_, .tail _ (.head _), pending.tail⟩
    | condition => simp [branchOf, shape] at has

/-! With loops -/

/-- A jump in the code goes back, so it does not skip the block behind it. -/
theorem dropIdiom?_eq_none (pending : Pending typed loops blocks finish built loop candidate session) :
    dropIdiom? session.context candidate.tail = none := by
  have arranged := pending.arranged
  have trimmed := pending.trimmed
  obtain ⟨tailInside, _, isTail⟩ := pending.tail
  have exitInside := arranged.next_of_scaffold tailInside isTail
  refine Option.eq_none_iff_forall_ne_some.mpr fun idiom found => ?_
  obtain ⟨jump, isJump, found⟩ := Option.bind_eq_some_iff.mp found
  obtain ⟨drop, isDrop, found⟩ := Option.bind_eq_some_iff.mp found
  rw [pending.nextBlock? exitInside] at isJump
  cases isJump
  have isNext := trimmed.exit pending.listed exitInside isDrop
  have dropInside : candidate.tail + 1 + 1 < blocks.length := by
    rw [trimmed.nextBlock? pending.listed exitInside] at isDrop
    simpa using (List.getElem?_eq_some_iff.mp isDrop).1
  subst isNext
  -- The one instruction is a branch of some loop, and only a while loop has a jump.
  dsimp only at found
  split at found
  · next only isOnly =>
    rw [trimmed.instructions exitInside List.not_mem_nil] at isOnly
    obtain ⟨target, goes, found⟩ := Option.bind_eq_some_iff.mp found
    obtain ⟨drops, _⟩ := Option.ite_none_right_eq_some.mp found
    obtain ⟨isJump, goes⟩ := Option.ite_none_right_eq_some.mp goes
    have fits := arranged.fits _ (List.getElem_mem exitInside)
    obtain ⟨⟨other, role, ending⟩, opcode, isScaffold, _, _, same, isBranch⟩ :=
      fits.scaffold_of_target (by rw [isOnly]; rfl) goes
    obtain ⟨member, _, holds⟩ := fits.scaffold _ isScaffold
    have back : role = .tail ∧ target = other.start := by
      have jumps : opcode = .b := same ▸ eq_of_beq isJump
      dsimp only at isBranch
      unfold branchOf at isBranch
      split at isBranch <;> simp_all
    obtain ⟨rfl, rfl⟩ := back
    have before : other.start ≤ blocks[candidate.tail + 1].start := holds.2.1
    have after : blocks[candidate.tail + 1].start < blocks[candidate.tail + 1 + 1].start :=
      arranged.start_lt_start (Nat.lt_succ_self _) dropInside
    have stop := arranged.start_le_stop dropInside
    have beyond : (session.graph.node (candidate.tail + 1 + 1)).stop ≤ other.start :=
      of_decide_eq_true (Bool.and_eq_true_iff.mp drops).2
    rw [pending.staged.owned.stop _ dropInside] at beyond
    omega
  · cases found

theorem reaches_with (pending : Pending typed loops blocks finish built loop candidate session)
    (shape : loop.shape = .withLoop) (headTop : NodeId) :
    Succeeds (shapeWith source blocks.length candidate headTop) session fun shaped next =>
      ShapedAs blocks built loop candidate.tail session shaped next := by
  have arranged := pending.arranged
  have trimmed := pending.trimmed
  have single : loop.shape ≠ .repeatLoop := by simp [shape]
  obtain ⟨before, isHead, inside, opening, isBefore⟩ := pending.entrance (by simp [branchOf, shape])
  have bears : Bears blocks loop .prelude before := ⟨inside, opening, isBefore⟩
  obtain ⟨tailInside, turning, isTail⟩ := pending.tail
  obtain ⟨_, turns, tailStop, tailStart, bare⟩ := arranged.scaffold_at tailInside isTail
  obtain ⟨_, noLead, noMiddle⟩ := bare shape
  have exitInside := arranged.next_of_scaffold tailInside isTail
  have undone : candidate.tail ∉ [before] :=
    fun same => pending.tail.ne bears (by simp) (List.mem_singleton.mp same)
  have isBranch : branchOf loop .tail = some (.popenv, loop.start) := by simp [branchOf, shape]
  unfold shapeWith
  extract_lets head tail start
  refine .getContext_bind ?_
  extract_lets graph tailNode idiom stop breaks exit finish
  have noIdiom : idiom = none := by
    simp only [idiom]
    split
    · exact pending.dropIdiom?_eq_none
    · rfl
  have previous : session.context.previousBlock? head = some before := by
    rw [show head = before + 1 from isHead]
    exact pending.previousBlock? (arranged.next_of_scaffold inside isBefore)
  have environment : isEnvironmentTail tailNode start = true := by
    obtain ⟨last, isLast, opcode, goes⟩ := arranged.last_remains tailInside isTail pending.unbuilt isBranch
    obtain ⟨only, isOnly⟩ := List.length_eq_one_iff.mp (turns.single single)
    have held : blocks[candidate.tail].remains (built.map (·.1)) = [only] := by
      rw [BlockPlan.remains, BlockPlan.Fits.ending_eq isTail pending.unbuilt, BlockPlan.leading, noLead, noMiddle]
      exact isOnly
    rw [held] at isLast
    obtain rfl : only = last := Option.some.inj isLast
    rw [isEnvironmentTail, trimmed.instructions tailInside List.not_mem_nil, held,
      show start = loop.start from pending.start]
    simp [Instruction.targetOf?, opcode, goes]
  have noContinue : switchContinue? graph session.claims blocks.length start tailNode.start = none := by
    rw [pending.unclaimed]
    exact List.find?_eq_none.mpr fun block _ => by simp
  have isStop : stop = loop.stop := by
    simp only [stop, noIdiom, Option.map_none, Option.getD_none, tailNode, graph]
    rw [pending.staged.owned.stop _ tailInside, tailStop]
  have isExit : exit = some (candidate.tail + 1) := by
    simp only [exit, noIdiom]
    exact pending.nextBlock? exitInside
  clear_value idiom stop breaks exit
  subst noIdiom isExit
  rw [previous]
  dsimp only
  rw [if_neg (by simp [environment])]
  refine .getClaims_bind ?_
  rw [noContinue]
  dsimp only
  refine .modifyGraph_bind fun opened isOpened openedGraph => ?_
  refine .modifyGraph_bind fun turned isTurned turnedGraph => ?_
  have trimmed : Trimmed blocks (built.map (·.1)) loop session.graph [before] opened.graph := by
    rw [openedGraph, pending.popIf_eq trimmed single bears List.not_mem_nil
      (show branchOf loop .prelude = some (.pushenv, loop.turn) by simp [branchOf, shape])]
    exact pending.halve bears fun _ => (pending.single single inside isBefore).2
  have trimmed : Trimmed blocks (built.map (·.1)) loop session.graph _ turned.graph :=
    turnedGraph ▸ pending.dropBranch trimmed single pending.tail undone isBranch
  refine .bind (pending.reaches_convertJumps trimmed (.head _) pending.start isStop) fun _ next same => .pure ?_
  subst same
  refine pending.shapedAs ?_ trimmed (fun role has => ?_) (absurd · single) shape.symm isStop
    fun exit isExit => (Option.some.inj isExit).symm
  · rw [turnedGraph, isTurned, isOpened, Session.withGraph_withGraph]
  · cases role with
    | prelude => exact ⟨_, .tail _ (.head _), bears⟩
    | tail => exact ⟨_, .head _, pending.tail⟩
    | condition => simp [branchOf, shape] at has

end Pending

end Structuring.LoopNest
