import Structuring.Proofs.LoopNest.Building

/-! The candidates for loops.

The walk over the blocks from the last to the first finds each loop of a program once: where it goes
back, or for a with loop where its environment is set. Shorter candidates come first, so a loop is
built when those inside it are, and none around it.
-/

namespace Structuring.LoopNest

open Bytecode Recovery FlowGraph

variable {typed : Bool} {loops : List PlacedLoop} {blocks : List BlockPlan} {finish : Nat} {graph : FlowGraph}
  {scan : CandidateScan} {loop : PlacedLoop} {ending : List Instruction} {candidate : Candidate}
  {opcode : Opcode}

def loopOf (candidate : Candidate) : PlacedLoop := ⟨candidate.shape, candidate.start, candidate.stop⟩

def PlacedLoop.anchor (loop : PlacedLoop) : Role :=
  if loop.shape = .withLoop then .prelude else .tail

def BlockPlan.anchored (block : BlockPlan) : Option PlacedLoop :=
  block.scaffold.bind fun scaffold =>
    if scaffold.role = scaffold.loop.anchor then some scaffold.loop else none

theorem has_anchor (loop : PlacedLoop) : (branchOf loop loop.anchor).isSome = true := by
  unfold branchOf PlacedLoop.anchor
  cases loop.shape <;> rfl

theorem anchored_eq_some {block : BlockPlan} :
    block.anchored = some loop ↔ ∃ ending, block.scaffold = some ⟨loop, loop.anchor, ending⟩ := by
  unfold BlockPlan.anchored
  constructor
  · intro found
    obtain ⟨⟨other, role, ending⟩, isScaffold, found⟩ := Option.bind_eq_some_iff.mp found
    obtain ⟨isAnchor, same⟩ := Option.ite_none_right_eq_some.mp found
    cases same
    exact ⟨ending, isAnchor ▸ isScaffold⟩
  · rintro ⟨ending, isScaffold⟩
    simp [isScaffold]

namespace Arranged

theorem perm_anchored (arranged : Arranged typed loops blocks finish) :
    (blocks.reverse.filterMap (·.anchored)).Perm loops := by
  have once : (blocks.filterMap (·.anchored)).Nodup := by
    refine List.pairwise_filterMap.mpr (List.pairwise_iff_getElem.mpr fun early late inside inside' before => ?_)
    rintro loop isEarly _ isLate rfl
    obtain ⟨ending, isEarly⟩ := anchored_eq_some.mp isEarly
    obtain ⟨ending', isLate⟩ := anchored_eq_some.mp isLate
    exact Nat.ne_of_lt before (arranged.eq_of_scaffold inside inside' isEarly isLate)
  rw [List.filterMap_reverse]
  refine (List.reverse_perm _).trans
    ((List.perm_ext_iff_of_nodup once arranged.laminar.nodup).mpr fun loop => ⟨fun found => ?_, fun member => ?_⟩)
  · obtain ⟨block, among, isAnchored⟩ := List.mem_filterMap.mp found
    obtain ⟨ending, isScaffold⟩ := anchored_eq_some.mp isAnchored
    exact ((arranged.fits block among).scaffold _ isScaffold).1
  · obtain ⟨block, among, ending, isScaffold⟩ := arranged.branches loop member _ (has_anchor loop)
    exact List.mem_filterMap.mpr ⟨block, among, anchored_eq_some.mpr ⟨ending, isScaffold⟩⟩

theorem eq_of_while (arranged : Arranged typed loops blocks finish) {first second : PlacedLoop}
    (isFirst : first ∈ loops) (isSecond : second ∈ loops) (shape : first.shape = .whileLoop)
    (otherShape : second.shape = .whileLoop) (same : first.start = second.start) : first = second := by
  have room := arranged.laminar.room first isFirst
  have otherRoom := arranged.laminar.room second isSecond
  rcases arranged.laminar.apart first isFirst second isSecond with equal | apart | inside | around
  · exact equal
  · unfold PlacedLoop.Apart at apart
    omega
  · exact absurd (arranged.laminar.heads second isSecond first isFirst otherShape inside) (by omega)
  · exact absurd (arranged.laminar.heads first isFirst second isSecond shape around) (by omega)

end Arranged

/-- A candidate goes from the head of its loop to the block that goes back. -/
def Located (blocks : List BlockPlan) (candidate : Candidate) : Prop :=
  (∃ inside : candidate.head < blocks.length, blocks[candidate.head].start = candidate.start) ∧
    ∃ (inside : candidate.tail < blocks.length) (ending : List Instruction),
      blocks[candidate.tail].scaffold = some ⟨loopOf candidate, .tail, ending⟩

structure Scanned (loops : List PlacedLoop) (blocks : List BlockPlan) (start : Nat) (scan : CandidateScan) :
    Prop where
  found : scan.candidates.map loopOf = (blocks.drop start).reverse.filterMap (·.anchored)
  known : ∀ candidate ∈ scan.candidates, Located blocks candidate
  heads : ∀ address ∈ scan.whileHeads, ∃ loop ∈ loops, loop.shape = .whileLoop ∧ loop.start = address ∧
    ∃ (index : Nat) (inside : index < blocks.length) (ending : List Instruction), start ≤ index ∧
      blocks[index].scaffold = some ⟨loop, .tail, ending⟩
  withs : ∀ (index : Nat) (inside : index < blocks.length) (loop : PlacedLoop) (ending : List Instruction),
    start ≤ index → blocks[index].scaffold = some ⟨loop, .prelude, ending⟩ → loop.shape = .withLoop →
      ∀ (tail : Nat) (inside : tail < blocks.length) (turning : List Instruction),
        blocks[tail].scaffold = some ⟨loop, .tail, turning⟩ → tail ∈ scan.withTails
  tails : ∀ tail ∈ scan.environmentTails, ∃ (inside : tail < blocks.length) (loop : PlacedLoop)
    (ending : List Instruction), blocks[tail].scaffold = some ⟨loop, .tail, ending⟩ ∧ loop.shape = .withLoop

theorem scanned_nil (loops : List PlacedLoop) (blocks : List BlockPlan) :
    Scanned loops blocks blocks.length {} where
  found := by simp
  known := List.forall_mem_nil _
  heads := List.forall_mem_nil _
  withs := fun index inside _ _ late => absurd inside (Nat.not_lt_of_le late)
  tails := List.forall_mem_nil _

theorem Owned.blockAt? {built : List (PlacedLoop × NodeId)} (owned : Owned blocks built graph)
    (arranged : Arranged typed loops blocks finish) {index : Nat} (inside : index < blocks.length) :
    graph.blockAt? (List.range blocks.length) blocks[index].start = some index := by
  rw [FlowGraph.blockAt?, List.find?_range_eq_some]
  refine ⟨by simp [owned.start index inside], List.mem_range.mpr inside, fun earlier before => ?_⟩
  have := arranged.start_lt_start before inside
  have earlierStart := owned.start earlier (Nat.lt_trans before inside)
  simp only [earlierStart, Bool.not_eq_true', beq_eq_false_iff_ne]
  omega

namespace Scanned

variable {index : Nat}

theorem drop_reverse (inside : index < blocks.length) :
    (blocks.drop index).reverse.filterMap (·.anchored) =
      (blocks.drop (index + 1)).reverse.filterMap (·.anchored) ++ blocks[index].anchored.toList := by
  rw [← List.getElem_cons_drop inside, List.reverse_cons, List.filterMap_append]
  cases isAnchored : blocks[index].anchored <;> simp [isAnchored]

theorem skip (scanned : Scanned loops blocks (index + 1) scan) (inside : index < blocks.length)
    (none : blocks[index].anchored = none) : Scanned loops blocks index scan where
  found := by rw [drop_reverse inside, none, Option.toList_none, List.append_nil, scanned.found]
  known := scanned.known
  heads address member := by
    obtain ⟨loop, among, shape, start, other, bound, ending, late, isScaffold⟩ := scanned.heads address member
    exact ⟨loop, among, shape, start, other, bound, ending, Nat.le_of_succ_le late, isScaffold⟩
  withs other bound loop ending late isScaffold shape := by
    refine scanned.withs other bound loop ending (Nat.lt_of_le_of_ne late ?_) isScaffold shape
    rintro rfl
    have isAnchored : blocks[index].anchored = some loop :=
      anchored_eq_some.mpr ⟨ending, by rw [isScaffold, PlacedLoop.anchor, if_pos shape]⟩
    exact absurd (none.symm.trans isAnchored) (by simp)
  tails := scanned.tails

theorem add (scanned : Scanned loops blocks (index + 1) scan) (inside : index < blocks.length)
    (isAnchored : blocks[index].anchored = some loop)
    (isLoop : loopOf candidate = loop)
    (head : ∃ inside : candidate.head < blocks.length, blocks[candidate.head].start = candidate.start)
    (tail : ∃ (inside : candidate.tail < blocks.length) (ending : List Instruction),
      blocks[candidate.tail].scaffold = some ⟨loopOf candidate, .tail, ending⟩)
    {whileHeads : List Nat} {withTails : List NodeId}
    (heads : ∀ address ∈ whileHeads, address ∈ scan.whileHeads ∨ loop ∈ loops ∧ loop.shape = .whileLoop ∧
      loop.start = address ∧ ∃ ending, blocks[index].scaffold = some ⟨loop, .tail, ending⟩)
    (grows : ∀ tail ∈ scan.withTails, tail ∈ withTails)
    (withs : loop.shape = .withLoop → candidate.tail ∈ withTails)
    (once : ∀ (other : Nat) (inside : other < blocks.length) (ending : List Instruction),
      blocks[other].scaffold = some ⟨loop, .tail, ending⟩ → other = candidate.tail) :
    Scanned loops blocks index
      ⟨scan.candidates ++ [candidate], whileHeads, withTails, scan.environmentTails⟩ where
  found := by
    rw [drop_reverse inside, isAnchored, List.map_append, scanned.found, List.map_singleton, isLoop]
    rfl
  known other member := by
    rcases List.mem_append.mp member with old | new
    · exact scanned.known other old
    · rw [List.mem_singleton.mp new]
      exact ⟨head, tail⟩
  heads address member := by
    rcases heads address member with old | ⟨among, shape, start, ending, isScaffold⟩
    · obtain ⟨other, among, shape, start, late, bound, ending, after, isScaffold⟩ := scanned.heads address old
      exact ⟨other, among, shape, start, late, bound, ending, Nat.le_of_succ_le after, isScaffold⟩
    · exact ⟨loop, among, shape, start, index, inside, ending, Nat.le_refl _, isScaffold⟩
  withs other bound found ending late isScaffold shape tail tailInside turning isTail := by
    rcases Nat.lt_or_eq_of_le late with after | rfl
    · exact grows tail (scanned.withs other bound found ending after isScaffold shape tail tailInside turning isTail)
    · have isFound : blocks[index].anchored = some found :=
        anchored_eq_some.mpr ⟨ending, by rw [isScaffold, PlacedLoop.anchor, if_pos shape]⟩
      obtain rfl : loop = found := Option.some.inj (isAnchored.symm.trans isFound)
      rw [once tail tailInside turning isTail]
      exact withs shape
  tails := scanned.tails

section

variable (arranged : Arranged typed loops blocks finish) (staged : Staged blocks [] [] graph)
include arranged staged

/-- What the last instruction of a block with the branch of a loop is. -/
theorem last_of_scaffold (inside : index < blocks.length) {role : Role}
    (isScaffold : blocks[index].scaffold = some ⟨loop, role, ending⟩)
    {target : Nat} (isBranch : branchOf loop role = some (opcode, target)) :
    (graph.node index).lastOpcode? = some opcode ∧ (graph.node index).target? = some target := by
  obtain ⟨last, isLast, same, goes⟩ := arranged.last_remains inside isScaffold List.not_mem_nil isBranch
  have held : (graph.node index).last? = some last := by
    rw [Node.last?, staged.instructions inside]
    exact isLast
  rw [Node.lastOpcode?, Node.target?, held]
  exact ⟨congrArg some same, goes⟩

section

variable (scanned : Scanned loops blocks (index + 1) scan) (inside : index < blocks.length)

include scanned inside

theorem visit_ahead {role : Role} (isScaffold : blocks[index].scaffold = some ⟨loop, role, ending⟩)
    (isBranch : branchOf loop role = some (opcode, loop.stop)) (other : opcode ≠ .pushenv)
    (before : blocks[index].start < loop.stop) (apart : role ≠ loop.anchor) :
    scan.visit graph (List.range blocks.length) (List.range blocks.length)[index + 1]? index = .ok scan ∧
      Scanned loops blocks index scan := by
  obtain ⟨isLast, goes⟩ := last_of_scaffold arranged staged inside isScaffold isBranch
  refine ⟨?_, scanned.skip inside ?_⟩
  · have ahead : (graph.node index).start < loop.stop := by rwa [staged.owned.start index inside]
    simp [CandidateScan.visit, isLast, goes, other, ahead]
  · simp [BlockPlan.anchored, isScaffold, apart]

theorem visit_environment 

    (isScaffold : blocks[index].scaffold = some ⟨loop, .prelude, ending⟩) (shape : loop.shape = .withLoop) :
    ∃ next, scan.visit graph (List.range blocks.length) (List.range blocks.length)[index + 1]? index =
      .ok next ∧ Scanned loops blocks index next := by
  have isBranch : branchOf loop .prelude = some (.pushenv, loop.turn) := by simp [branchOf, shape]
  obtain ⟨isLast, goes⟩ := last_of_scaffold arranged staged inside isScaffold isBranch
  obtain ⟨member, _, stop⟩ := arranged.scaffold_at inside isScaffold
  have next := arranged.next_of_scaffold inside isScaffold
  have headStart : blocks[index + 1].start = loop.start := (arranged.adjacent index next).2.symm.trans stop
  obtain ⟨tail, tailNext, turning, isTail, _, tailStop, _, bare⟩ :=
    arranged.exists_scaffold member (Arranged.has_tail loop)
  have tailInside := Nat.lt_of_succ_lt tailNext
  have isTarget : graph.blockAt? (List.range blocks.length) loop.turn = some tail := by
    rw [← (bare shape).1]
    exact staged.owned.blockAt? arranged tailInside
  have isNext : (List.range blocks.length)[index + 1]? = some (index + 1) := by simp [next]
  have isLoop : loopOf ⟨.withLoop, index + 1, tail, (graph.node (index + 1)).start, (graph.node tail).stop⟩ =
      loop := by
    rw [loopOf, staged.owned.start _ next, staged.owned.stop _ tailInside, headStart, tailStop, ← shape]
  refine ⟨scan.addEnvironment graph (index + 1) tail, ?_, ?_⟩
  · simp [CandidateScan.visit, isLast, goes, isNext, isTarget]
  · have isAnchored : blocks[index].anchored = some loop :=
      anchored_eq_some.mpr ⟨ending, by rw [isScaffold, PlacedLoop.anchor, if_pos shape]⟩
    refine scanned.add inside isAnchored isLoop ⟨next, (staged.owned.start _ next).symm⟩ ⟨tailInside, turning, ?_⟩
      (fun _ old => .inl old) (fun _ => .tail _) (fun _ => .head _) fun other bound ending isOther => ?_
    · rw [isLoop]
      exact isTail
    · exact arranged.eq_of_scaffold bound tailInside isOther isTail

theorem visit_back (isScaffold : blocks[index].scaffold = some ⟨loop, .tail, ending⟩) :
    ∃ next, scan.visit graph (List.range blocks.length) (List.range blocks.length)[index + 1]? index =
      .ok next ∧ Scanned loops blocks index next := by
  obtain ⟨member, _, stop, start, _⟩ := arranged.scaffold_at inside isScaffold
  obtain ⟨block, among, headStart⟩ := arranged.heads loop member
  obtain ⟨head, headInside, rfl⟩ := List.getElem_of_mem among
  have isTarget : graph.blockAt? (List.range blocks.length) loop.start = some head := by
    rw [← headStart]
    exact staged.owned.blockAt? arranged headInside
  obtain ⟨opcode, isBranch, other⟩ : ∃ opcode, branchOf loop .tail = some (opcode, loop.start) ∧
      opcode ≠ .pushenv := by
    unfold branchOf
    cases loop.shape <;> simp
  obtain ⟨isLast, goes⟩ := last_of_scaffold arranged staged inside isScaffold isBranch
  have behind : ¬(graph.node index).start < loop.start := by
    rw [staged.owned.start index inside]
    exact Nat.not_lt_of_le start
  have visits : scan.visit graph (List.range blocks.length) (List.range blocks.length)[index + 1]? index =
      .ok (scan.addBackEdge graph index opcode head loop.start) := by
    simp [CandidateScan.visit, isLast, goes, other, behind, isTarget]
  refine ⟨_, visits, ?_⟩
  have isStop : (graph.node index).stop = loop.stop := (staged.owned.stop index inside).trans stop
  have isAnchored (shape : loop.shape ≠ .withLoop) : blocks[index].anchored = some loop :=
    anchored_eq_some.mpr ⟨ending, by rw [isScaffold, PlacedLoop.anchor, if_neg shape]⟩
  have once (other : Nat) (bound : other < blocks.length) (turning : List Instruction)
      (isOther : blocks[other].scaffold = some ⟨loop, .tail, turning⟩) : other = index :=
    arranged.eq_of_scaffold bound inside isOther isScaffold
  have adds (shape : loop.shape ≠ .withLoop) (whileHeads : List Nat)
      (heads : ∀ address ∈ whileHeads, address ∈ scan.whileHeads ∨ loop.shape = .whileLoop ∧ loop.start = address) :
      Scanned loops blocks index ⟨scan.candidates ++ [⟨loop.shape, head, index, loop.start, (graph.node index).stop⟩],
        whileHeads, scan.withTails, scan.environmentTails⟩ := by
    have isLoop : loopOf ⟨loop.shape, head, index, loop.start, (graph.node index).stop⟩ = loop := by
      rw [loopOf, isStop]
    refine scanned.add inside (isAnchored shape) isLoop ⟨headInside, headStart⟩ ⟨inside, ending, ?_⟩
      (fun address isHead => ?_) (fun _ => id) (fun isWith => absurd isWith shape) once
    · rw [isLoop]
      exact isScaffold
    · exact (heads address isHead).imp_right fun found => ⟨member, found.1, found.2, ending, isScaffold⟩
  cases shape : loop.shape with
  | whileLoop =>
    obtain rfl : .b = opcode := by simpa [branchOf, shape] using congrArg (·.map (·.1)) isBranch
    -- The head has no tail yet, since no other while loop starts there.
    have fresh : scan.whileHeads.contains loop.start = false := by
      refine Bool.eq_false_iff.mpr fun taken => ?_
      obtain ⟨other, among, otherShape, same, late, bound, turning, after, isOther⟩ :=
        scanned.heads _ (List.contains_iff_mem.mp taken)
      obtain rfl := arranged.eq_of_while among member otherShape shape same
      exact absurd (once late bound turning isOther) (by omega)
    rw [CandidateScan.addBackEdge, fresh, if_neg Bool.false_ne_true, ← shape]
    refine adds (by simp [shape]) _ fun address isHead => ?_
    rcases List.mem_cons.mp isHead with rfl | old
    · exact .inr ⟨shape, rfl⟩
    · exact .inl old
  | doUntil =>
    obtain rfl : .bf = opcode := by simpa [branchOf, shape] using congrArg (·.map (·.1)) isBranch
    rw [CandidateScan.addBackEdge, ← shape]
    exact adds (by simp [shape]) _ fun _ => .inl
  | repeatLoop =>
    obtain rfl : .bt = opcode := by simpa [branchOf, shape] using congrArg (·.map (·.1)) isBranch
    rw [CandidateScan.addBackEdge, ← shape]
    exact adds (by simp [shape]) _ fun _ => .inl
  | withLoop =>
    obtain rfl : .popenv = opcode := by simpa [branchOf, shape] using congrArg (·.map (·.1)) isBranch
    have skipped : Scanned loops blocks index scan := by
      refine scanned.skip inside ?_
      simp [BlockPlan.anchored, isScaffold, PlacedLoop.anchor, shape]
    refine ⟨skipped.found, skipped.known, skipped.heads, skipped.withs, fun tail isTail => ?_⟩
    rcases List.mem_append.mp isTail with old | new
    · exact skipped.tails tail old
    · obtain rfl := List.mem_singleton.mp new
      exact ⟨inside, loop, ending, isScaffold, shape⟩

theorem visit :
    ∃ next, scan.visit graph (List.range blocks.length) (List.range blocks.length)[index + 1]? index =
      .ok next ∧ Scanned loops blocks index next := by
  have fits := arranged.fits _ (List.getElem_mem inside)
  cases isScaffold : blocks[index].scaffold with
  | none =>
    refine ⟨scan, ?_, scanned.skip inside (by simp [BlockPlan.anchored, isScaffold])⟩
    have none : (graph.node index).target? = none := by
      rw [Node.target?, Node.last?, staged.instructions inside]
      exact (fits.target?_remains _).trans (by simp [BlockPlan.goal, isScaffold])
    simp [CandidateScan.visit, none]
  | some scaffold =>
    obtain ⟨loop, role, ending⟩ := scaffold
    obtain ⟨member, _, holds⟩ := fits.scaffold _ isScaffold
    have room := arranged.laminar.room loop member
    have grows := (arranged.adjacent index (arranged.next_of_scaffold inside isScaffold)).1
    obtain ⟨⟨opcode, target⟩, isBranch⟩ := Option.isSome_iff_exists.mp (arranged.has_of_scaffold inside isScaffold)
    cases role with
    | tail => exact scanned.visit_back arranged staged inside isScaffold
    | condition =>
      have start : blocks[index].start = loop.start := holds
      obtain ⟨shape, rfl, rfl⟩ : loop.shape = .whileLoop ∧ .bf = opcode ∧ loop.stop = target := by
        unfold branchOf at isBranch
        split at isBranch <;> simp_all
      refine ⟨scan, scanned.visit_ahead arranged staged inside isScaffold isBranch (by simp) (by omega) ?_⟩
      simp [PlacedLoop.anchor, shape]
    | prelude =>
      have stop : blocks[index].stop = loop.start := holds
      by_cases isWith : loop.shape = .withLoop
      · exact scanned.visit_environment arranged staged inside isScaffold isWith
      · obtain ⟨shape, rfl, rfl⟩ : loop.shape = .repeatLoop ∧ .bt = opcode ∧ loop.stop = target := by
          unfold branchOf at isBranch
          split at isBranch <;> simp_all
        refine ⟨scan, scanned.visit_ahead arranged staged inside isScaffold isBranch (by simp) (by omega) ?_⟩
        simp [PlacedLoop.anchor, shape]

end

theorem run (count : Nat) (within : count ≤ blocks.length) (scanned : Scanned loops blocks count scan) :
    ∃ final, scan.run graph (List.range blocks.length) (List.range blocks.length)[count]?
      (List.range count).reverse = .ok final ∧ Scanned loops blocks 0 final := by
  induction count generalizing scan with
  | zero => exact ⟨scan, rfl, scanned⟩
  | succ count ih =>
    obtain ⟨next, visits, nextScanned⟩ := scanned.visit arranged staged within
    obtain ⟨final, runs, finalScanned⟩ := ih (Nat.le_of_succ_le within) nextScanned
    refine ⟨final, ?_, finalScanned⟩
    rw [List.range_succ, List.reverse_append, List.reverse_singleton, List.singleton_append, CandidateScan.run, visits]
    have isNext : (List.range blocks.length)[count]? = some count := by simp [Nat.lt_of_succ_le within]
    rw [isNext] at runs
    exact runs

end

end Scanned

/-- Each loop of a program has one candidate, and there are no others. -/
theorem findCandidates_eq (arranged : Arranged typed loops blocks finish) (staged : Staged blocks [] [] graph) :
    ∃ candidates, findCandidates graph blocks.length = .ok candidates ∧
      (candidates.map loopOf).Perm loops ∧ ∀ candidate ∈ candidates, Located blocks candidate := by
  obtain ⟨final, runs, scanned⟩ := (scanned_nil loops blocks).run arranged staged blocks.length (Nat.le_refl _)
  have isNone : (List.range blocks.length)[blocks.length]? = none := by simp
  rw [isNone] at runs
  have noStray : (final.environmentTails.find? fun block => !final.withTails.contains block) = none := by
    refine List.find?_eq_none.mpr fun tail isTail => ?_
    obtain ⟨inside, loop, turning, isScaffold, shape⟩ := scanned.tails tail isTail
    obtain ⟨member, _⟩ := arranged.scaffold_at inside isScaffold
    obtain ⟨before, next, ending, isBefore, _⟩ := arranged.exists_scaffold member
      (show (branchOf loop .prelude).isSome = true by simp [branchOf, shape])
    have among := scanned.withs before (Nat.lt_of_succ_lt next) loop ending (Nat.zero_le _) isBefore shape tail
      inside turning isScaffold
    simp [among]
  refine ⟨final.candidates, ?_, ?_, scanned.known⟩
  · rw [findCandidates, staged.listed, runs]
    dsimp only
    rw [noStray]
  · rw [scanned.found, List.drop_zero]
    exact arranged.perm_anchored

/-! The order of building -/

theorem precedes_trans (first second third : Candidate) (before : first.precedes second = true)
    (after : second.precedes third = true) : first.precedes third = true := by
  simp only [Candidate.precedes, Bool.or_eq_true, Bool.and_eq_true, beq_iff_eq, decide_eq_true_eq] at *
  omega

theorem precedes_total (first second : Candidate) (after : first.precedes second = false) :
    second.precedes first = true := by
  simp only [Candidate.precedes, Bool.or_eq_true, Bool.and_eq_true, beq_iff_eq, decide_eq_true_eq,
    Bool.or_eq_false_iff, Bool.and_eq_false_iff, decide_eq_false_iff_not, beq_eq_false_iff_ne] at *
  omega

theorem length_le_of_precedes {first second : Candidate} (before : first.precedes second = true) :
    first.stop - first.start ≤ second.stop - second.start := by
  simp only [Candidate.precedes, Bool.or_eq_true, Bool.and_eq_true, beq_iff_eq, decide_eq_true_eq] at before
  omega

theorem orderCandidates_eq (laminar : Laminar loops) {candidates : List Candidate}
    (perm : (candidates.map loopOf).Perm loops) :
    ∃ ordered, orderCandidates candidates = .ok ordered ∧ ordered.Perm candidates ∧
      ordered.Pairwise fun first second => first.precedes second = true := by
  refine ⟨stableSort Candidate.precedes candidates, if_neg fun ⟨_, negative⟩ => ?_, perm_stableSort _ _,
    pairwise_stableSort precedes_trans precedes_total _⟩
  obtain ⟨candidate, member, before⟩ := List.any_eq_true.mp negative
  have room := laminar.room _ (perm.mem_iff.mp (List.mem_map_of_mem member))
  have before : candidate.stop < candidate.start := of_decide_eq_true before
  have room : candidate.start + 4 ≤ candidate.stop := room
  omega

/-- A candidate whose turn has come is for a loop that is to be built next. -/
theorem ready_of_ordered (laminar : Laminar loops) {ordered done rest : List Candidate}
    (perm : (ordered.map loopOf).Perm loops)
    (sorted : ordered.Pairwise fun first second => first.precedes second = true)
    (parts : ordered = done ++ candidate :: rest) : Ready loops (done.map loopOf) (loopOf candidate) := by
  subst parts
  have nodup := perm.nodup_iff.mpr laminar.nodup
  obtain ⟨_, later, early⟩ := List.pairwise_append.mp sorted
  rw [List.map_append, List.map_cons] at nodup perm
  have room (loop : PlacedLoop) (member : loop ∈ loops) := laminar.room loop member
  have listed (other : Candidate) (among : other ∈ done ++ candidate :: rest) : loopOf other ∈ loops := by
    refine perm.mem_iff.mp ?_
    rw [← List.map_cons, ← List.map_append]
    exact List.mem_map_of_mem among
  refine ⟨listed candidate (by simp), fun taken => ?_, fun other member inside => ?_, fun other member => ?_,
    fun other member inside => ?_⟩
  · exact (List.nodup_append.mp nodup).2.2 _ taken _ (.head _) rfl
  · rcases List.mem_append.mp (perm.mem_iff.mpr member) with before | after
    · exact before
    · rcases List.mem_cons.mp after with rfl | after
      · exact absurd inside.2 (Nat.lt_irrefl _)
      · -- What comes later is not shorter.
        obtain ⟨found, among, rfl⟩ := List.mem_map.mp after
        have length := length_le_of_precedes ((List.pairwise_cons.mp later).1 found among)
        have := room _ member
        simp only [PlacedLoop.Inside, loopOf] at inside this
        omega
  · obtain ⟨found, among, rfl⟩ := List.mem_map.mp member
    exact listed found (List.mem_append_left _ among)
  · obtain ⟨found, among, rfl⟩ := List.mem_map.mp member
    have length := length_le_of_precedes (early found among candidate (.head _))
    have := room _ (listed found (List.mem_append_left _ among))
    have := room _ (listed candidate (by simp))
    simp only [PlacedLoop.Inside, loopOf] at *
    omega

end Structuring.LoopNest
