import Structuring.Proofs.LoopNest.Candidates
import Structuring.Proofs.OneBody

/-! Loops recovered from programs.

The blocks of a program are laid out with all branches in place and no dispatch of a switch among
them. When all loops are built no branch is left, so the other passes find nothing to do.
-/

namespace Structuring.LoopNest

open Bytecode Recovery FlowGraph

variable {typed : Bool} {loops : List PlacedLoop} {blocks : List BlockPlan} {finish : Nat} {source : Source}
  {session : Session} {graph : FlowGraph}

/-! Before the first loop -/

section

variable {context : Context} {code : Code} (arranged : Arranged typed loops blocks finish)
  (entered : context.Entered (blocks.map (·.slice)) code)
include entered

theorem core_of_entered {index : Nat} (inside : index < blocks.length) :
    (context.graph.node index).start = blocks[index].start ∧ (context.graph.node index).stop = blocks[index].stop ∧
      (context.graph.node index).parent = some blocks.length ∧
      (context.graph.node index).kind = .block ⟨index, blocks[index].instructions⟩ := by
  have core := entered.core index (by simpa using inside)
  rw [List.getElem_map] at core
  refine ⟨congrArg Node.start core, congrArg Node.stop core, ?_, congrArg Node.kind core⟩
  exact (congrArg Node.parent core).trans (by simp)

include arranged

/-- Blocks that are laid out have all their branches, and no loop is built. -/
theorem staged_of_entered : Staged blocks [] [] context.graph := by
  have core {index : Nat} (inside : index < blocks.length) := core_of_entered entered inside
  have size : context.graph.size = blocks.length + 1 := by simpa using entered.size
  have root : (context.graph.node blocks.length).kind = .fragment ⟨code.name,
      (List.range blocks.length).head?, List.range blocks.length⟩ := by
    simpa using congrArg Node.kind entered.root
  have owned : Owned blocks [] context.graph :=
    ⟨fun index inside => (core inside).1, fun index inside => (core inside).2.1,
      fun index inside => (core inside).2.2.1, List.forall_mem_nil _,
      List.forall_mem_nil _, List.forall_mem_nil _,
      fun _ inside => absurd inside (Nat.not_lt_zero _)⟩
  have kinds (index : Nat) (inside : index < blocks.length) :
      (context.graph.node index).kind = .block ⟨index, blocks[index].remains []⟩ := (core inside).2.2.2
  have structures (id : Nat) (outside : blocks.length ≤ id) : (context.graph.node id).kind.isBlock = false := by
    rcases Nat.eq_or_lt_of_le outside with rfl | beyond
    · rw [root]
      rfl
    · rw [node_of_size_le (by omega)]
      rfl
  refine ⟨owned, kinds, List.forall_mem_nil _, structures, ?_, fun id level => .inl ?_,
    fun id start member => ?_, fun index inside loop ending isScaffold _ => ?_⟩
  · rw [FlowGraph.fragmentBlocks_eq, root]
    rfl
  · have bound := lt_size_of_parent level
    rw [size] at bound
    refine Nat.lt_of_le_of_ne (Nat.le_of_lt_succ bound) ?_
    rintro rfl
    have parent : (context.graph.node blocks.length).parent = none := by
      simpa using congrArg Node.parent entered.root
    exact absurd (level.symm.trans parent) (by simp)
  · have inside : id < blocks.length := by
      obtain ⟨target, isTarget, _⟩ := List.mem_map.mp member
      have bound := lt_size_of_mem_successors isTarget
      rw [size] at bound
      refine Nat.lt_of_le_of_ne (Nat.le_of_lt_succ bound) ?_
      rintro rfl
      have none : (context.graph.node blocks.length).successors = [] := by
        simpa using congrArg Node.successors entered.root
      rw [none] at isTarget
      cases isTarget
    rw [startsAfter, entered.starts (by simpa using inside)] at member
    rcases List.mem_append.mp member with falls | goes
    · split at falls
      · obtain ⟨next, isNext, rfl⟩ := Option.map_eq_some_iff.mp (Option.mem_toList.mp falls)
        obtain ⟨bound, rfl⟩ := List.getElem?_eq_some_iff.mp isNext
        rw [List.length_range, List.length_map] at bound
        rw [List.getElem_range, (core bound).1, (core inside).2.1]
        exact .inl (arranged.adjacent id bound).2.symm
      · cases falls
    · exact .inr (Option.mem_toList.mp goes)
  · have next := arranged.next_of_scaffold inside isScaffold
    obtain ⟨⟨opcode, target⟩, isBranch⟩ := Option.isSome_iff_exists.mp (arranged.has_of_scaffold inside isScaffold)
    obtain ⟨last, isLast, same, goes⟩ := arranged.last_remains inside isScaffold List.not_mem_nil isBranch
    have held : (context.graph.node index).last? = some last := by
      rw [Node.last?, Node.instructions, kinds index inside]
      exact isLast
    have falls : fallsThrough (context.graph.node index) = true := by
      have opcodes : last.opcode = .bt ∨ last.opcode = .pushenv := by
        rw [same]
        unfold branchOf at isBranch
        split at isBranch <;> simp_all
      rw [fallsThrough, held]
      rcases opcodes with isOpcode | isOpcode <;> simp [Instruction.isJump, Instruction.isReturn, isOpcode]
    refine ⟨target, ?_⟩
    rw [startsAfter, entered.starts (by simpa using inside), if_pos falls, Node.target?, held, Option.bind_some, goes]
    have start := (core next).1
    rw [← (arranged.adjacent index next).2] at start
    simp [next, start]

end

/-- No block compares for a case of a switch: what comes right before a branch of a loop compares for
something else, if it does. -/
theorem exists_of_two_le_length {α : Type} {items : List α} (long : 2 ≤ items.length) :
    ∃ first second rest, items = first :: second :: rest := by
  obtain ⟨first, items, rfl⟩ := List.exists_cons_of_length_pos (Nat.lt_of_lt_of_le Nat.zero_lt_two long)
  obtain ⟨second, rest, rfl⟩ := List.exists_cons_of_length_pos (Nat.le_of_succ_le_succ long)
  exact ⟨first, second, rest, rfl⟩

theorem caseTarget?_eq_none (arranged : Arranged typed loops blocks finish)
    (staged : Staged blocks [] [] graph) (id : NodeId) : caseTarget? (graph.node id) = none := by
  by_cases inside : id < blocks.length
  · have fits := arranged.fits _ (List.getElem_mem inside)
    have text : (graph.node id).instructions = blocks[id].remains [] := by
      rw [Node.instructions, staged.kinds id inside]
    unfold caseTarget?
    split
    · next branch compare rest isReverse =>
      rw [text] at isReverse
      have isLast : (blocks[id].remains []).getLast? = some branch := by
        rw [List.getLast?_eq_head?_reverse, isReverse]
        rfl
      cases goes : branch.targetOf? .bt with
      | none => simp
      | some target =>
        obtain ⟨isTest, goes⟩ := Option.ite_none_right_eq_some.mp goes
        obtain ⟨⟨loop, role, ending⟩, opcode, isScaffold, _, isEnd, same, isBranch⟩ :=
          fits.scaffold_of_target isLast goes
        obtain ⟨_, isEnding, _⟩ := fits.scaffold _ isScaffold
        have shape : loop.shape = .repeatLoop := by
          have tests : opcode = .bt := same ▸ eq_of_beq isTest
          dsimp only at isBranch
          unfold branchOf at isBranch
          split at isBranch <;> simp_all
        -- A repeat loop has something of its own before the branch.
        have long : 2 ≤ ending.length := by
          cases role with
          | prelude => exact (isEnding.tests shape rfl).1 ▸ (by decide)
          | condition => simp [branchOf, shape] at isBranch
          | tail =>
            rw [(isEnding.counts shape rfl).1]
            cases typed <;> decide
        have before : compare ∈ ending.dropLast := by
          rw [arranged.remains_scaffold inside isScaffold List.not_mem_nil, List.reverse_append] at isReverse
          rw [← List.mem_reverse, ← List.tail_reverse]
          rw [← List.length_reverse] at long
          obtain ⟨last, found, more, isEnd⟩ := exists_of_two_le_length long
          rw [isEnd] at isReverse
          simp only [List.cons_append, List.cons.injEq] at isReverse
          simp [isEnd, isReverse.2.1]
        simp [(isEnding.before compare before).2]
    · rfl
  · have none : (graph.node id).instructions = [] :=
      Node.instructions_of_not_isBlock (staged.structures id (Nat.le_of_not_lt inside))
    simp [caseTarget?, none]

/-! All loops -/

structure Progress (blocks : List BlockPlan) (loops : List PlacedLoop) (session next : Session) : Prop where
  tidied : next.Tidied True
  claims : next.claims = session.claims
  built : ∃ built, built.map (·.1) = loops ∧ Staged blocks built loops next.graph ∧
    next.context = { session.context with graph := next.graph, loops := built.map (·.2) }

def PlacedLoop.NotLonger (first second : PlacedLoop) : Prop :=
  first.stop - first.start ≤ second.stop - second.start

section

variable (arranged : Arranged (source.features.has .typedBooleans) loops blocks finish)
  (tidied : session.Tidied True) (unclaimed : session.claims = {})
  (listed : session.blocks = List.range blocks.length) (none : session.loops = [])
  (staged : Staged blocks [] [] session.graph)

include arranged tidied unclaimed listed none staged

theorem reaches_buildFragmentLoops :
    Succeeds (buildFragmentLoops source blocks.length) session fun _ next =>
      ∃ built : List PlacedLoop, built.Perm loops ∧ built.Pairwise PlacedLoop.NotLonger ∧
        Progress blocks built session next := by
  obtain ⟨candidates, found, perm, located⟩ := findCandidates_eq arranged staged
  obtain ⟨ordered, isOrdered, sorted, pairwise⟩ := orderCandidates_eq arranged.laminar perm
  refine .getGraph_bind ?_
  rw [found]
  dsimp only
  rw [isOrdered]
  have perm := (sorted.map loopOf).trans perm
  refine .bind (.forM_done (fun done next => Progress blocks (done.map loopOf) session next ∧
      Edits buildingRights session next) ⟨⟨tidied, rfl, [], rfl, staged, ?_⟩, .refl⟩
    fun done candidate rest parts next ⟨progress, edits⟩ => ?_) fun _ next progress =>
      .pure ⟨_, perm, List.pairwise_map.mpr (pairwise.imp length_le_of_precedes), progress.1⟩
  · rw [List.map_nil, ← none]
  obtain ⟨built, same, staged, context⟩ := progress.built
  obtain ⟨head, tail⟩ := located candidate (sorted.mem_iff.mp (parts ▸ by simp))
  have ready := ready_of_ordered arranged.laminar perm pairwise parts
  rw [← same] at staged ready
  obtain ⟨tailInside, _, isTail⟩ := tail
  have isLoop := (arranged.scaffold_at tailInside isTail).2.2.1
  have pending : Pending (source.features.has .typedBooleans) loops blocks finish built (loopOf candidate)
      candidate next :=
    ⟨arranged, ready, staged, progress.tidied.sound.graph.edges, by rw [context]; exact listed,
      progress.claims.trans unclaimed, rfl, rfl, head, tailInside, _, isTail⟩
  have headListed : candidate.head ∈ fragmentBlocks next.graph blocks.length := by
    rw [staged.listed]
    exact List.mem_range.mpr head.1
  obtain ⟨top, climbs⟩ := (progress.tidied.nested blocks.length candidate.head headListed).2.climb
    progress.tidied.sound.graph (staged.owned.bound head.1)
  have tailListed : candidate.tail ∈ fragmentBlocks next.graph blocks.length := by
    rw [staged.listed]
    exact List.mem_range.mpr tailInside
  have stop := (staged.owned.stop _ tailInside).trans isLoop
  refine .imp ((pending.reaches_buildLoop rfl progress.tidied climbs tailListed stop).and_returns
    (tidied_buildLoop progress.tidied headListed tailListed stop)) ?_
  rintro _ final ⟨⟨⟨id, stagedNext, frame⟩, claims⟩, more, tidiedNext, _⟩
  refine ⟨⟨tidiedNext, claims.trans progress.claims, built ++ [(loopOf candidate, id)], ?_, ?_, ?_⟩, edits.trans more⟩
  · simp [same]
  · rw [List.map_append, List.map_singleton, ← same]
    exact stagedNext
  · rw [frame, context]
    simp

theorem reaches_buildLoops (fragments : session.fragments = [blocks.length]) :
    Succeeds (buildLoops source) session fun _ next =>
      ∃ built : List PlacedLoop, built.Perm loops ∧ built.Pairwise PlacedLoop.NotLonger ∧
        Progress blocks built session next := by
  refine .getContext_bind ?_
  rw [fragments, List.foldlM_cons]
  refine .bind (.bind (reaches_buildFragmentLoops arranged tidied unclaimed listed none staged)
    fun _ _ known => .pure known) fun _ _ known => .pure known

end

/-! Loops around loops -/

section

variable {built : List (PlacedLoop × NodeId)} {root : NodeId}

/-- Among loops that come in the order of their lengths, the first one around an address at which a
loop starts is the innermost one around that loop. -/
theorem owner_eq_around (laminar : Laminar loops) (perm : (built.map (·.1)).Perm loops)
    (sorted : (built.map (·.1)).Pairwise PlacedLoop.NotLonger) {place : Nat} (inside : place < built.length)
    {around : Option PlacedLoop} (isAround : IsAround loops built[place].1 around) :
    owner root (built.drop (place + 1)) built[place].1.start = (around.map (nodeOf built)).getD root := by
  have nodup := perm.nodup_iff.mpr laminar.nodup
  have listed (entry : PlacedLoop × NodeId) (member : entry ∈ built) : entry.1 ∈ loops :=
    perm.mem_iff.mp (List.mem_map_of_mem member)
  have pairs := List.pairwise_iff_getElem.mp (List.pairwise_map.mp sorted)
  have room := laminar.room _ (listed _ (List.getElem_mem inside))
  have later (entry : PlacedLoop × NodeId) (member : entry ∈ built.drop (place + 1)) :
      ∃ (index : Nat) (bound : index < built.length), place < index ∧ built[index] = entry := by
    obtain ⟨offset, bound, rfl⟩ := List.mem_drop_iff_getElem.mp member
    exact ⟨place + 1 + offset, by omega, by omega, rfl⟩
  -- A loop around the one in question is longer, so it comes later.
  have follows (outer : PlacedLoop) (member : outer ∈ loops) (within : built[place].1.Inside outer) :
      ∃ entry ∈ built.drop (place + 1), entry.1 = outer := by
    obtain ⟨entry, among, rfl⟩ := List.mem_map.mp (perm.mem_iff.mpr member)
    obtain ⟨index, bound, rfl⟩ := List.getElem_of_mem among
    have outerRoom := laminar.room _ member
    unfold PlacedLoop.Inside at within
    rcases Nat.lt_trichotomy index place with before | rfl | after
    · have longer : PlacedLoop.NotLonger _ _ := pairs index place bound inside before
      unfold PlacedLoop.NotLonger at longer
      omega
    · omega
    · exact ⟨_, List.mem_drop_iff_getElem.mpr ⟨index - (place + 1), by omega,
        by simp [show place + 1 + (index - (place + 1)) = index by omega]⟩, rfl⟩
  -- What comes later and has the start inside is around the loop.
  have surrounds (entry : PlacedLoop × NodeId) (member : entry ∈ built.drop (place + 1))
      (contains : entry.1.contains built[place].1.start = true) : built[place].1.Inside entry.1 := by
    obtain ⟨index, bound, after, rfl⟩ := later entry member
    have longer : PlacedLoop.NotLonger _ _ := pairs place index inside bound after
    have outerRoom := laminar.room _ (listed _ (List.getElem_mem bound))
    rw [PlacedLoop.contains_iff] at contains
    rcases laminar.apart _ (listed _ (List.getElem_mem inside)) _ (listed _ (List.getElem_mem bound)) with
      same | apart | within | around
    · have isSame := List.inj_on_of_nodup_map nodup (List.getElem_mem inside) (List.getElem_mem bound) same
      exact absurd ((List.Nodup.getElem_inj_iff (List.Nodup.of_map _ nodup)).mp isSame) (Nat.ne_of_lt after)
    · unfold PlacedLoop.Apart at apart
      omega
    · exact within
    · unfold PlacedLoop.NotLonger at longer
      unfold PlacedLoop.Inside at around
      omega
  unfold owner
  cases found : (built.drop (place + 1)).find? (·.1.contains built[place].1.start) with
  | none =>
    cases around with
    | none => rfl
    | some outer =>
      obtain ⟨member, within, _⟩ := isAround
      obtain ⟨entry, among, rfl⟩ := follows outer member within
      have none := List.find?_eq_none.mp found entry among
      rw [PlacedLoop.contains_iff] at none
      unfold PlacedLoop.Inside at within
      omega
  | some entry =>
    obtain ⟨contains, first, rest, parts, before⟩ := List.find?_eq_some_iff_append.mp found
    have among := List.mem_of_find?_eq_some found
    have entryListed := listed entry (List.mem_of_mem_drop among)
    have within := surrounds entry among contains
    cases around with
    | none => exact absurd within (isAround entry.1 entryListed)
    | some outer =>
      obtain ⟨member, inOuter, innermost⟩ := isAround
      rcases innermost entry.1 entryListed within with rfl | outerWithin
      · exact (nodeOf_eq nodup (List.mem_of_mem_drop among)).symm
      · -- The innermost one is shorter, so it would have been found first.
        obtain ⟨found, isFound, rfl⟩ := follows outer member inOuter
        have outerRoom := laminar.room _ member
        rw [parts] at isFound
        unfold PlacedLoop.Inside at inOuter outerWithin
        rcases List.mem_append.mp isFound with early | late
        · have none := before found early
          rw [Bool.not_eq_true', ← Bool.not_eq_true, PlacedLoop.contains_iff] at none
          omega
        · rcases List.mem_cons.mp late with rfl | late
          · omega
          · have order := List.Pairwise.sublist (List.drop_sublist (place + 1) built) (List.pairwise_map.mp sorted)
            rw [parts] at order
            have longer : PlacedLoop.NotLonger _ _ :=
              (List.pairwise_cons.mp (List.pairwise_append.mp order).2.1).1 found late
            unfold PlacedLoop.NotLonger at longer
            omega

end

/-! Whole runs -/

theorem Staged.plain {built : List (PlacedLoop × NodeId)} {gone : List PlacedLoop}
    (arranged : Arranged typed loops blocks finish) (staged : Staged blocks built gone graph)
    (all : ∀ loop ∈ loops, loop ∈ gone) (id : NodeId) : (graph.node id).Plain := by
  by_cases inside : id < blocks.length
  · have fits := arranged.fits _ (List.getElem_mem inside)
    rw [Node.Plain, Node.instructions, staged.kinds id inside]
    exact fits.plain_remains fun scaffold isScaffold => all _ (fits.scaffold scaffold isScaffold).1
  · rw [Node.Plain, Node.instructions_of_not_isBlock (staged.structures id (Nat.le_of_not_lt inside))]
    exact List.forall_mem_nil _

theorem Staged.eq_of_node {built : List (PlacedLoop × NodeId)} {gone : List PlacedLoop}
    (staged : Staged blocks built gone graph) {first second : PlacedLoop × NodeId} (isFirst : first ∈ built)
    (isSecond : second ∈ built) (same : first.2 = second.2) : first = second := by
  obtain ⟨parts, isLoop, family⟩ := staged.loops first isFirst
  obtain ⟨parts', isLoop', family'⟩ := staged.loops second isSecond
  have start := staged.owned.loopStart first isFirst
  have stop := staged.owned.loopStop first isFirst
  rw [same] at isLoop start stop
  rw [staged.owned.loopStart second isSecond] at start
  rw [staged.owned.loopStop second isSecond] at stop
  cases isLoop.symm.trans isLoop'
  obtain ⟨⟨shape, _, _⟩, _⟩ := first
  obtain ⟨⟨shape', _, _⟩, _⟩ := second
  dsimp only at start stop same family family'
  rw [start, stop, same, ← family, family']

structure Complete (blocks : List BlockPlan) (loops : List PlacedLoop) (final : Session) : Prop where
  root : final.root = some blocks.length
  built : ∃ built : List (PlacedLoop × NodeId), (built.map (·.1)).Perm loops ∧
    (built.map (·.1)).Pairwise PlacedLoop.NotLonger ∧
    Staged blocks built (built.map (·.1)) final.graph ∧ final.loops = built.map (·.2)

theorem reaches_run (arranged : Arranged (source.features.has .typedBooleans) loops blocks finish)
    (ordered : InOrder source.code.instructions) (childless : source.code.children = [])
    (cuts : cutFailure? source.code = none)
    (isSlices : sliceAt (cutPoints source.code) source.code.instructions = blocks.map (·.slice)) :
    Succeeds (runPasses source {} [] Pass.standard) {} fun _ final => Complete blocks loops final := by
  refine reaches_layout ordered childless cuts isSlices rfl fun changed laid tidied unclaimed entered => ?_
  have staged := staged_of_entered arranged entered
  have listed : laid.blocks = List.range blocks.length := by rw [entered.whole, List.length_map]
  -- No switch is located.
  have locates : Succeeds (Pass.switchLocate.apply source) laid fun _ next =>
      next.context = laid.context ∧ next.claims = {} :=
    .of_ok (locateSwitches_of_noCase (caseTarget?_eq_none arranged staged) unclaimed) ⟨rfl, unclaimed⟩
  refine reaches_runPasses_cons rfl ((Reaches.applyPass (fun context claims => context = laid.context ∧ claims = {})
    locates (fun _ _ _ known => known.1 ▸ tidied.closed.edgesAgree) true).and_returns
    (tidies_applyPass (by simp [Pass.standard]) true tidied)) ?_
  rintro _ changed located ⟨⟨same, unclaimed⟩, tidied⟩
  rw [← same] at staged listed
  have none : located.loops = [] := by rw [same, entered.whole]
  have fragments : located.fragments = [blocks.length] := by rw [same, entered.whole, List.length_map]
  have root : located.root = some blocks.length := by rw [same, entered.whole, List.length_map]
  have builds : Succeeds (Pass.loops.apply source) located fun _ next =>
      next.claims = {} ∧ next.graph.Mutual ∧ ∃ built : List (PlacedLoop × NodeId),
        (built.map (·.1)).Perm loops ∧ (built.map (·.1)).Pairwise PlacedLoop.NotLonger ∧
        Staged blocks built (built.map (·.1)) next.graph ∧
        next.context = { located.context with graph := next.graph, loops := built.map (·.2) } := by
    refine .imp (reaches_buildLoops arranged tidied unclaimed listed none staged fragments) ?_
    rintro _ next ⟨_, perm, sorted, tidied, claims, built, rfl, stagedNext, context⟩
    exact ⟨claims.trans unclaimed, tidied.sound.graph.edges, built, perm, sorted, stagedNext, context⟩
  refine reaches_runPasses_cons rfl ((Reaches.applyPass (fun context claims =>
    claims = {} ∧ context.graph.Mutual ∧ ∃ built : List (PlacedLoop × NodeId), (built.map (·.1)).Perm loops ∧
      (built.map (·.1)).Pairwise PlacedLoop.NotLonger ∧ Staged blocks built (built.map (·.1)) context.graph ∧
      context = { located.context with graph := context.graph, loops := built.map (·.2) })
    builds (fun _ _ _ known => known.2.1) true).and_returns
    (tidies_applyPass (by simp [Pass.standard]) true tidied)) ?_
  rintro _ changed looped ⟨⟨unclaimed, _, built, perm, sorted, staged, context⟩, tidied⟩
  -- Nothing is left for the other passes.
  have finished : looped.Finished := by
    refine ⟨tidied.sound, ?_, ?_, staged.plain arranged fun loop member => perm.mem_iff.mpr member, unclaimed⟩
    · obtain ⟨block, isFirst, _⟩ := arranged.first
      have some := (List.getElem?_eq_some_iff.mp isFirst).1
      have isListed : looped.blocks = List.range blocks.length := (congrArg Context.blocks context).trans listed
      rw [isListed, ne_eq, List.range_eq_nil]
      exact Nat.ne_of_gt some
    · rw [congrArg Context.root context, root]
      rfl
  obtain ⟨early, log, ran⟩ : ∃ early log, (runPasses source {} changed [.branches, .switchInsert, .staticInit]).run
      looped = .ok ⟨early, changed⟩ { looped with log } :=
    finished.run_runPasses {} changed (by simp [Pass.standard])
  refine .of_ok ran ⟨?_, built, perm, sorted, staged, ?_⟩
  · exact (congrArg Context.root context).trans root
  · exact congrArg Context.loops context

/-- Whatever loops a program has, and however they are nested, each of them is recovered as one loop of
its kind, from its head to behind its branch back, inside the loop that is around it in the program. -/
theorem loops_recovered (program : Program) (name : String) (symbols : Symbols) (features : Features) :
    ∃ (outcome : RunOutcome) (final : Session) (root : NodeId) (node : PlacedLoop → NodeId),
      structureEntry ⟨program.code (features.has .typedBooleans) name symbols, features⟩ = .ok outcome final ∧
      final.root = some root ∧ final.loops.Nodup ∧
      final.loops.Perm ((program.loops (features.has .typedBooleans) 0).map node) ∧
      ∀ loop around, (loop, around) ∈ program.nest (features.has .typedBooleans) 0 none →
        (∃ parts, (final.graph.node (node loop)).kind = .loop parts ∧
          familyOf parts.shape = loop.shape) ∧
        (final.graph.node (node loop)).start = loop.start ∧
        (final.graph.node (node loop)).stop = loop.stop ∧
        (final.graph.node (node loop)).parent = some ((around.map node).getD root) := by
  have arranged := program.arranged (features.has .typedBooleans)
  have reaches : Succeeds (runPasses ⟨program.code (features.has .typedBooleans) name symbols, features⟩ {} []
      Pass.standard) {} _ :=
    reaches_run arranged (program.inOrder_code _ name symbols) rfl (program.cutInto_code _ name symbols).cutFailure?_eq_none
      (program.sliceAt_code _ name symbols)
  obtain ⟨outcome, final, done, root, built, perm, sorted, staged, loops⟩ := reaches.ok
  have nodup := perm.nodup_iff.mpr arranged.laminar.nodup
  have nodes : built.map (·.2) = (built.map (·.1)).map (nodeOf built) := by
    rw [List.map_map]
    exact List.map_congr_left fun entry member => (nodeOf_eq nodup member).symm
  refine ⟨outcome, final, _, nodeOf built, done, root, ?_, ?_, fun loop around member => ?_⟩
  · rw [loops]
    exact List.Nodup.map_on (fun first isFirst second isSecond => staged.eq_of_node isFirst isSecond)
      (List.Nodup.of_map _ nodup)
  · rw [loops, nodes]
    exact perm.map _
  · have listed : loop ∈ program.loops (features.has .typedBooleans) 0 :=
      program.map_fst_nest none 0 ▸ List.mem_map_of_mem member
    obtain ⟨entry, among, rfl⟩ := List.mem_map.mp (perm.mem_iff.mpr listed)
    obtain ⟨place, inside, rfl⟩ := List.getElem_of_mem among
    have isAround : IsAround (program.loops (features.has .typedBooleans) 0) built[place].1 around := by
      rcases Program.isAround_of_mem_nest member with ⟨rfl, isAround⟩ | ⟨outer, rfl, isAround⟩
      · exact isAround
      · exact isAround
    rw [nodeOf_eq nodup among]
    refine ⟨staged.loops _ among, staged.owned.loopStart _ among, staged.owned.loopStop _ among, ?_⟩
    rw [staged.owned.loopParent place inside, owner_eq_around arranged.laminar perm sorted inside isAround]

def integerCounter : Counter where
  copy := ⟨0, .dup, .int32, .int32, .dup 0⟩
  zero := ⟨0, .pushi, .int16, .int16, .int16 0⟩
  compare := ⟨0, .cmp, .int32, .int32, .comparison .lessEqual⟩
  one := ⟨0, .pushi, .int16, .int16, .int16 1⟩
  subtract := ⟨0, .sub, .int32, .int32, .none⟩
  copyBack := ⟨0, .dup, .int32, .int32, .dup 0⟩
  convert := ⟨0, .conv, .int32, .bool, .none⟩
  discard := ⟨0, .popz, .int32, .int32, .none⟩
  copies := rfl
  isZero := rfl
  compares := rfl
  isOne := rfl
  subtracts := rfl
  copiesBack := rfl
  converts := rfl
  discards := rfl

def countedUntil : Program :=
  .loop (.doUntil (pushRun 0))
    (.loop (.repeatLoop (pushRun 3) integerCounter) (.run (pushRun 5) .done) .done) .done

theorem loops_recovered_countedUntil :
    ∃ (outcome : RunOutcome) (final : Session) (root outer inner : NodeId),
      structureEntry ⟨countedUntil.code true "counted" {}, .all⟩ = .ok outcome final ∧
      final.loops.Perm [outer, inner] ∧ outer ≠ inner ∧
      (∃ parts, (final.graph.node inner).kind = .loop parts ∧ familyOf parts.shape = .repeatLoop) ∧
      (final.graph.node inner).start = 20 ∧ (final.graph.node inner).stop = 44 ∧
      (final.graph.node inner).parent = some outer ∧
      (final.graph.node outer).parent = some root := by
  obtain ⟨outcome, final, root, node, done, _, nodup, perm, each⟩ :=
    loops_recovered countedUntil "counted" {} .all
  have isPerm : final.loops.Perm [node ⟨.doUntil, 0, 56⟩, node ⟨.repeatLoop, 20, 44⟩] := perm
  have outer := each ⟨.doUntil, 0, 56⟩ none (.head _)
  have inner := each ⟨.repeatLoop, 20, 44⟩ (some ⟨.doUntil, 0, 56⟩) (.tail _ (.head _))
  have apart := isPerm.nodup_iff.mp nodup
  exact ⟨outcome, final, root, _, _, done, isPerm, by simpa using apart, inner.1, inner.2.1, inner.2.2.1,
    inner.2.2.2, outer.2.2.2⟩

end Structuring.LoopNest
