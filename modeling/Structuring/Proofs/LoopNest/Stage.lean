import Structuring.Proofs.Slots.Loop
import Structuring.Proofs.LoopNest.Blocks

/-! Graphs in which some loops are built.

Loops are built from the inside out. A loop that is built lies inside the next one around it that is
built; the others have their branches still, and what remains of a block tells which edges leave it.
So an edge on the level of the fragment crosses the boundary of a loop only at its head and behind
its tail.
-/

namespace Structuring.LoopNest

open Bytecode Recovery FlowGraph

variable {root id : NodeId} {address index target : Nat} {entry : PlacedLoop × NodeId} {scaffold : Scaffold}

def familyOf : LoopShape → CandidateShape
  | .whileLoop _ _ => .whileLoop
  | .doUntil => .doUntil
  | .repeatLoop => .repeatLoop
  | .withLoop _ => .withLoop

def owner (root : NodeId) (built : List (PlacedLoop × NodeId)) (address : Nat) : NodeId :=
  ((built.find? (·.1.contains address)).map (·.2)).getD root

theorem owner_cases (root : NodeId) (built : List (PlacedLoop × NodeId)) (address : Nat) :
    (∀ entry ∈ built, entry.1.contains address = false) ∧ owner root built address = root ∨
      ∃ entry ∈ built, entry.1.contains address = true ∧ owner root built address = entry.2 := by
  unfold owner
  cases found : built.find? (·.1.contains address) with
  | none => exact .inl ⟨fun entry member => by simpa using List.find?_eq_none.mp found entry member, rfl⟩
  | some entry =>
    exact .inr ⟨entry, List.mem_of_find?_eq_some found, by simpa using List.find?_some found, rfl⟩

theorem contains_eq_false {built : List (PlacedLoop × NodeId)}
    (above : ∀ entry ∈ built, root < entry.2) (outermost : owner root built address = root)
    (member : entry ∈ built) : entry.1.contains address = false := by
  rcases owner_cases root built address with ⟨none, _⟩ | ⟨found, among, _, same⟩
  · exact none entry member
  · exact absurd (same.symm.trans outermost) (Nat.ne_of_gt (above found among))

theorem owner_concat {built : List (PlacedLoop × NodeId)}
    (above : ∀ entry ∈ built, root < entry.2) (loop : PlacedLoop) (id : NodeId) (address : Nat) :
    owner root (built ++ [(loop, id)]) address =
      if owner root built address = root ∧ loop.contains address = true then id
      else owner root built address := by
  unfold owner
  rw [List.find?_append]
  cases found : built.find? (·.1.contains address) with
  | none => by_cases inside : loop.contains address = true <;> simp [inside]
  | some entry =>
    have := above entry (List.mem_of_find?_eq_some found)
    simp only [Option.some_or, Option.map_some, Option.getD_some]
    rw [if_neg fun here => absurd here.1 (Nat.ne_of_gt this)]

/-! Levels -/

structure Owned (blocks : List BlockPlan) (built : List (PlacedLoop × NodeId)) (graph : FlowGraph) :
    Prop where
  start : ∀ (index : Nat) (inside : index < blocks.length), (graph.node index).start = blocks[index].start
  stop : ∀ (index : Nat) (inside : index < blocks.length), (graph.node index).stop = blocks[index].stop
  parent : ∀ (index : Nat) (inside : index < blocks.length),
    (graph.node index).parent = some (owner blocks.length built blocks[index].start)
  above : ∀ entry ∈ built, blocks.length < entry.2
  loopStart : ∀ entry ∈ built, (graph.node entry.2).start = entry.1.start
  loopStop : ∀ entry ∈ built, (graph.node entry.2).stop = entry.1.stop
  loopParent : ∀ (place : Nat) (inside : place < built.length), (graph.node built[place].2).parent =
    some (owner blocks.length (built.drop (place + 1)) built[place].1.start)

namespace Owned

variable {blocks : List BlockPlan} {built : List (PlacedLoop × NodeId)} {graph next : FlowGraph}

theorem bound (owned : Owned blocks built graph) (inside : index < blocks.length) :
    index < graph.size := lt_size_of_parent (owned.parent index inside)

theorem loopBound (owned : Owned blocks built graph) (member : entry ∈ built) : entry.2 < graph.size := by
  obtain ⟨place, inside, rfl⟩ := List.getElem_of_mem member
  exact lt_size_of_parent (owned.loopParent place inside)

theorem later (owned : Owned blocks built graph) (keeps : Keeps graph next) : Owned blocks built next where
  start index inside := (keeps.start index (owned.bound inside)).trans (owned.start index inside)
  stop index inside := (keeps.stop index (owned.bound inside)).trans (owned.stop index inside)
  parent index inside := (keeps.parent index (owned.bound inside)).trans (owned.parent index inside)
  above := owned.above
  loopStart entry member := (keeps.start _ (owned.loopBound member)).trans (owned.loopStart entry member)
  loopStop entry member := (keeps.stop _ (owned.loopBound member)).trans (owned.loopStop entry member)
  loopParent place inside := (keeps.parent _ (owned.loopBound (List.getElem_mem inside))).trans
    (owned.loopParent place inside)

def StartsAt (blocks : List BlockPlan) (built : List (PlacedLoop × NodeId)) (address : Nat)
    (id : NodeId) : Prop :=
  (∃ inside : id < blocks.length, blocks[id].start = address) ∨
    ∃ entry ∈ built, entry.2 = id ∧ entry.1.start = address

/-- If the loops around an address all start there, so does what is found by climbing from it. -/
theorem startsAt_climbWithin (owned : Owned blocks built graph)
    (begins : ∀ entry ∈ built, entry.1.contains address = true → entry.1.start = address)
    {fuel : Nat} {top : NodeId} (starts : StartsAt blocks built address id)
    (climbs : graph.climbWithin (some blocks.length) fuel id = some top) :
    StartsAt blocks built address top := by
  induction fuel generalizing id with
  | zero => exact absurd climbs (by simp [climbWithin])
  | succ fuel ih =>
    -- Whatever is around is a loop that starts at the address, or the fragment.
    obtain ⟨above, part, isParent⟩ : ∃ above, above.Sublist built ∧
        (graph.node id).parent = some (owner blocks.length above address) := by
      rcases starts with ⟨inside, start⟩ | ⟨entry, member, rfl, start⟩
      · exact ⟨built, List.Sublist.refl _, start ▸ owned.parent id inside⟩
      · obtain ⟨place, inside, rfl⟩ := List.getElem_of_mem member
        exact ⟨_, List.drop_sublist _ _, start ▸ owned.loopParent place inside⟩
    unfold climbWithin at climbs
    split at climbs
    · exact Option.some.inj climbs ▸ starts
    · next outside =>
      rw [isParent] at climbs outside
      rcases owner_cases blocks.length above address with ⟨_, same⟩ | ⟨entry, member, inside, same⟩
      · exact absurd (congrArg some same) outside
      · have among := part.subset member
        exact ih (.inr ⟨entry, among, same.symm, begins entry among inside⟩) climbs

theorem start_of_startsAt (owned : Owned blocks built graph)
    (starts : StartsAt blocks built address id) : (graph.node id).start = address := by
  rcases starts with ⟨inside, start⟩ | ⟨entry, member, rfl, start⟩
  · exact (owned.start id inside).trans start
  · exact (owned.loopStart entry member).trans start

theorem eq_of_startsAt {typed : Bool} {loops : List PlacedLoop} {finish : Nat}
    (owned : Owned blocks built graph) (arranged : Arranged typed loops blocks finish)
    (known : ∀ entry ∈ built, entry.1.start < entry.1.stop) {first second : NodeId}
    (isFirst : StartsAt blocks built address first) (isSecond : StartsAt blocks built address second)
    (firstLevel : (graph.node first).parent = some blocks.length)
    (secondLevel : (graph.node second).parent = some blocks.length) : first = second := by
  have around (entry) (member : entry ∈ built) (start : entry.1.start = address) :
      entry.1.contains address = true :=
    PlacedLoop.contains_iff.mpr ⟨Nat.le_of_eq start, start ▸ known entry member⟩
  -- No loop that starts there is around a block or an earlier loop of the level.
  have alone {id} (inside : id < blocks.length) (start : blocks[id].start = address)
      (level : (graph.node id).parent = some blocks.length) {entry} (member : entry ∈ built)
      (loopStart : entry.1.start = address) : False := by
    rw [owned.parent id inside, start] at level
    have none := contains_eq_false owned.above (Option.some.inj level) member
    exact absurd (none.symm.trans (around entry member loopStart)) Bool.false_ne_true
  have lastly {early late : Nat} (before : early < late) (inside : late < built.length)
      (start : built[early].1.start = address) (laterStart : built[late].1.start = address)
      (level : (graph.node built[early].2).parent = some blocks.length) : False := by
    rw [owned.loopParent early (by omega), start] at level
    have among : built[late] ∈ built.drop (early + 1) := by
      rw [List.mem_drop_iff_getElem]
      exact ⟨late - (early + 1), by omega, by simp [show early + 1 + (late - (early + 1)) = late by omega]⟩
    have none := contains_eq_false (fun entry member => owned.above entry (List.mem_of_mem_drop member))
      (Option.some.inj level) among
    exact absurd (none.symm.trans (around _ (List.getElem_mem inside) laterStart)) Bool.false_ne_true
  rcases isFirst with ⟨inside, start⟩ | ⟨entry, member, rfl, start⟩
  · rcases isSecond with ⟨inside', start'⟩ | ⟨entry, member, rfl, start'⟩
    · exact arranged.eq_of_start_eq inside inside' (start.trans start'.symm)
    · exact (alone inside start firstLevel member start').elim
  · rcases isSecond with ⟨inside', start'⟩ | ⟨other, among, rfl, start'⟩
    · exact (alone inside' start' secondLevel member start).elim
    · obtain ⟨early, inside, rfl⟩ := List.getElem_of_mem member
      obtain ⟨late, inside', rfl⟩ := List.getElem_of_mem among
      rcases Nat.lt_trichotomy early late with before | rfl | after
      · exact (lastly before inside' start start' firstLevel).elim
      · rfl
      · exact (lastly after inside start' start secondLevel).elim

end Owned

/-! What remains of blocks -/

namespace BlockPlan.Fits

variable {typed : Bool} {loops : List PlacedLoop} {finish : Nat} {block : BlockPlan}
  {gone : List PlacedLoop}

theorem plain_remains (fits : block.Fits typed loops finish)
    (unscaffolded : ∀ scaffold, block.scaffold = some scaffold → scaffold.loop ∈ gone) :
    ∀ inst ∈ block.remains gone, inst.isBranch = false ∧ inst.opcode.takesLabel = false := by
  have noEnding : block.ending gone = [] := by
    unfold ending
    cases isScaffold : block.scaffold with
    | none => rfl
    | some scaffold => exact if_pos (unscaffolded scaffold isScaffold)
  intro inst member
  rw [remains, noEnding, List.append_nil] at member
  rcases List.mem_append.mp member with isLead | inMiddle
  · unfold leading at isLead
    split at isLead
    · next loop discard lead =>
      split at isLead
      · cases isLead
      · obtain ⟨_, _, _, opcode⟩ := fits.lead loop discard lead
        rw [List.mem_singleton.mp isLead]
        have straight : IsStraight discard := isStraight_of_opcode (by simp [opcode, Opcode.isBranch])
          (by simp [Instruction.isReturn, opcode])
        exact ⟨straight.1, straight.2.1⟩
    · cases isLead
  · exact ⟨(fits.middle inst inMiddle).straight, (fits.middle inst inMiddle).plain⟩

theorem ending_eq (isScaffold : block.scaffold = some scaffold)
    (undone : scaffold.loop ∉ gone) : block.ending gone = scaffold.ending := by
  unfold ending
  rw [isScaffold]
  exact if_neg undone

/-- The branch at the end of what remains of a block is that of a loop which is not built. -/
theorem scaffold_of_target (fits : block.Fits typed loops finish) {inst : Instruction}
    (isLast : (block.remains gone).getLast? = some inst) (goes : inst.branchTarget? = some target) :
    ∃ scaffold opcode, block.scaffold = some scaffold ∧ scaffold.loop ∉ gone ∧
      scaffold.ending.getLast? = some inst ∧ inst.opcode = opcode ∧
      branchOf scaffold.loop scaffold.role = some (opcode, target) := by
  have found : ∃ scaffold, block.scaffold = some scaffold ∧ scaffold.loop ∉ gone := by
    refine Classical.byContradiction fun none => ?_
    have unscaffolded (scaffold : Scaffold) (isScaffold : block.scaffold = some scaffold) :
        scaffold.loop ∈ gone := Classical.byContradiction fun undone => none ⟨scaffold, isScaffold, undone⟩
    have noBranch := (fits.plain_remains unscaffolded inst (List.mem_of_getLast? isLast)).1
    rw [Instruction.isBranch, goes] at noBranch
    cases noBranch
  obtain ⟨scaffold, isScaffold, undone⟩ := found
  obtain ⟨_, isEnding, _⟩ := fits.scaffold scaffold isScaffold
  obtain ⟨last, opcode, other, isEndingLast, isBranch, sameOpcode, sameGoes⟩ := isEnding.branchTarget?
  rw [remains, ending_eq isScaffold undone, List.getLast?_append, isEndingLast, Option.some_or] at isLast
  cases isLast
  rw [goes] at sameGoes
  cases sameGoes
  exact ⟨scaffold, opcode, isScaffold, undone, isEndingLast, sameOpcode, isBranch⟩

end BlockPlan.Fits

/-! Stages -/

def startsAfter (graph : FlowGraph) (id : NodeId) : List Nat :=
  (graph.node id).successors.map fun target => (graph.node target).start

structure Staged (blocks : List BlockPlan) (built : List (PlacedLoop × NodeId)) (gone : List PlacedLoop)
    (graph : FlowGraph) : Prop where
  owned : Owned blocks built graph
  kinds : ∀ (index : Nat) (inside : index < blocks.length),
    (graph.node index).kind = .block ⟨index, blocks[index].remains gone⟩
  loops : ∀ entry ∈ built, ∃ parts, (graph.node entry.2).kind = .loop parts ∧
    familyOf parts.shape = entry.1.shape
  structures : ∀ id, blocks.length ≤ id → (graph.node id).kind.isBlock = false
  listed : fragmentBlocks graph blocks.length = List.range blocks.length
  level : ∀ id, (graph.node id).parent = some blocks.length → id < blocks.length ∨ ∃ entry ∈ built, entry.2 = id
  edges : ∀ id, ∀ start ∈ startsAfter graph id,
    start = (graph.node id).stop ∨ (graph.node id).target? = some start
  preludes : ∀ (index : Nat) (inside : index < blocks.length) (loop : PlacedLoop)
    (ending : List Instruction), blocks[index].scaffold = some ⟨loop, .prelude, ending⟩ → loop ∉ gone →
    ∃ target, startsAfter graph index = [blocks[index].stop, target]

structure Ready (loops built : List PlacedLoop) (loop : PlacedLoop) : Prop where
  member : loop ∈ loops
  fresh : loop ∉ built
  inner : ∀ other ∈ loops, other.Inside loop → other ∈ built
  among : ∀ other ∈ built, other ∈ loops
  outer : ∀ other ∈ built, ¬loop.Inside other

namespace Ready

variable {loops built : List PlacedLoop} {loop other : PlacedLoop}

theorem of_built (ready : Ready loops built loop) (laminar : Laminar loops) (member : other ∈ built) :
    other.Apart loop ∨ other.Inside loop := by
  rcases laminar.apart other (ready.among other member) loop ready.member with
    rfl | apart | inside | around
  · exact absurd member ready.fresh
  · exact .inl apart
  · exact .inr inside
  · exact absurd around (ready.outer other member)

theorem of_unbuilt (ready : Ready loops built loop) (laminar : Laminar loops) (member : other ∈ loops)
    (unbuilt : other ∉ built) (different : other ≠ loop) : other.Apart loop ∨ loop.Inside other := by
  rcases laminar.apart other member loop ready.member with same | apart | inside | around
  · exact absurd same different
  · exact .inl apart
  · exact absurd (ready.inner other member inside) unbuilt
  · exact .inr around

end Ready

/-! Edges across the boundary of a loop -/

section

variable {typed : Bool} {loops : List PlacedLoop} {blocks : List BlockPlan} {finish : Nat}
  {loop : PlacedLoop}

/-- The branch of a loop that is around the one to be built, or apart from it, either stays outside
with its block or stays inside with it. -/
theorem Arranged.branch_crossing (arranged : Arranged typed loops blocks finish) (member : loop ∈ loops)
    (inside : index < blocks.length) {opcode : Opcode} (isScaffold : blocks[index].scaffold = some scaffold)
    (isBranch : branchOf scaffold.loop scaffold.role = some (opcode, target))
    (relation : scaffold.loop.Apart loop ∨ loop.Inside scaffold.loop) :
    ¬(loop.start ≤ blocks[index].start ∧ blocks[index].start < loop.stop) ∧
      ¬(loop.start < target ∧ target < loop.stop) := by
  obtain ⟨otherMember, isEnding, holds⟩ := arranged.scaffold_at inside isScaffold
  have room := arranged.laminar.room loop member
  have otherRoom := arranged.laminar.room _ otherMember
  have grows := (arranged.adjacent index (arranged.next_of_scaffold inside isScaffold)).1
  -- No block reaches across the end of the loop.
  obtain ⟨tail, next, _, isTail, _, tailStop, _⟩ := arranged.exists_scaffold member (has_tail loop)
  have behind : blocks[tail + 1].start = loop.stop := (arranged.adjacent tail next).2.symm.trans tailStop
  have outside := arranged.outside inside next
  rw [behind] at outside
  obtain ⟨other, role, ending⟩ := scaffold
  dsimp only at *
  unfold PlacedLoop.Apart PlacedLoop.Inside at relation
  cases role with
  | tail =>
    obtain ⟨stop, start, _⟩ := holds
    have back : target = other.start := by
      unfold branchOf at isBranch
      split at isBranch <;> simp_all
    omega
  | condition =>
    have isWhile : other.shape = .whileLoop ∧ target = other.stop := by
      unfold branchOf at isBranch
      split at isBranch <;> simp_all
    have start : blocks[index].start = other.start := holds
    -- A while loop starts before what is inside it.
    have heads := arranged.laminar.heads other otherMember loop member isWhile.1
    unfold PlacedLoop.Inside at heads
    omega
  | prelude =>
    have stop : blocks[index].stop = other.start := holds
    have goes : target = other.stop ∨ other.shape = .withLoop ∧ target = other.turn := by
      unfold branchOf at isBranch
      split at isBranch <;> simp_all
    -- The block right before the end is the tail, and that does not lead into a loop.
    have notTail : blocks[index].stop ≠ loop.stop := by
      intro same
      obtain rfl := arranged.eq_of_stop_eq (arranged.next_of_scaffold inside isScaffold) next
        (same.trans tailStop.symm)
      rw [isScaffold] at isTail
      cases isTail
    rcases goes with rfl | ⟨isWith, rfl⟩
    · omega
    · -- The target is a block of its own, which does not reach across the end of the loop either.
      obtain ⟨back, after, _, _, _, backStop, _, bare⟩ := arranged.exists_scaffold otherMember (has_tail other)
      have backStart := (bare isWith).1
      have outside := arranged.outside (Nat.lt_of_succ_lt after) next
      rw [behind, backStart, backStop] at outside
      unfold PlacedLoop.turn at *
      omega

/-- An edge of a node on the level of the fragment that starts inside a loop leads to an address
behind its head, and any other edge does not. -/
theorem Staged.crossing {graph : FlowGraph} {built : List (PlacedLoop × NodeId)}
    (arranged : Arranged typed loops blocks finish) (ready : Ready loops (built.map (·.1)) loop)
    (staged : Staged blocks built (built.map (·.1) ++ [loop]) graph) {tail : Nat}
    (isTail : ∃ (inside : tail < blocks.length) (ending : List Instruction),
      blocks[tail].scaffold = some ⟨loop, .tail, ending⟩)
    (cleared : (graph.node tail).successors = [])
    (known : id < blocks.length ∨ ∃ entry ∈ built, entry.2 = id) {start : Nat}
    (member : start ∈ startsAfter graph id) :
    loop.start ≤ (graph.node id).start ∧ (graph.node id).start < loop.stop ↔
      loop.start < start ∧ start < loop.stop := by
  have room := arranged.laminar.room loop ready.member
  rcases known with inside | ⟨entry, among, rfl⟩
  · rw [staged.owned.start id inside]
    rcases staged.edges id start member with falls | goes
    · rw [falls, staged.owned.stop id inside]
      obtain ⟨tailInside, ending, isTail⟩ := isTail
      have next := arranged.next_of_scaffold tailInside isTail
      obtain ⟨_, _, tailStop, _⟩ := arranged.scaffold_at tailInside isTail
      have behind : blocks[tail + 1].start = loop.stop := (arranged.adjacent tail next).2.symm.trans tailStop
      obtain ⟨block, among, headStart⟩ := arranged.heads loop ready.member
      obtain ⟨head, headInside, rfl⟩ := List.getElem_of_mem among
      have acrossStart := arranged.outside inside headInside
      have acrossStop := arranged.outside inside next
      rw [headStart] at acrossStart
      rw [behind] at acrossStop
      rcases Nat.lt_or_eq_of_le (Nat.succ_le_of_lt inside) with after | isLast
      · have grows := (arranged.adjacent id after).1
        -- The tail is the one block that stops where the loop does, and it leads nowhere.
        have notTail : blocks[id].stop ≠ loop.stop := by
          intro same
          obtain rfl := arranged.eq_of_stop_eq after next (same.trans tailStop.symm)
          rw [startsAfter, cleared] at member
          cases member
        omega
      · have before := arranged.start_le_start (show tail + 1 ≤ id by omega) inside
        obtain ⟨_, start, stop⟩ := arranged.last id inside isLast
        omega
    · obtain ⟨inst, isLast, goes⟩ := Option.bind_eq_some_iff.mp goes
      rw [Node.last?, Node.instructions, staged.kinds id inside] at isLast
      obtain ⟨scaffold, opcode, isScaffold, undone, _, _, isBranch⟩ :=
        (arranged.fits _ (List.getElem_mem inside)).scaffold_of_target isLast goes
      obtain ⟨otherMember, _⟩ := arranged.scaffold_at inside isScaffold
      have relation := ready.of_unbuilt arranged.laminar otherMember
        (fun built => undone (List.mem_append_left _ built))
        (fun same => undone (List.mem_append_right _ (List.mem_singleton.mpr same)))
      have crosses := arranged.branch_crossing ready.member inside isScaffold isBranch relation
      exact iff_of_false crosses.1 crosses.2
  · -- A loop that is built leads to what is behind it.
    have listed : entry.1 ∈ built.map (·.1) := List.mem_map_of_mem among
    have room := arranged.laminar.room _ (ready.among _ listed)
    obtain ⟨parts, isLoop, _⟩ := staged.loops entry among
    have noTarget : (graph.node entry.2).target? = none := by
      simp [Node.target?, Node.last?, Node.instructions, isLoop]
    have stops : start = entry.1.stop := by
      rcases staged.edges entry.2 start member with stops | goes
      · rw [stops, staged.owned.loopStop entry among]
      · exact absurd (noTarget.symm.trans goes) (by simp)
    rw [stops, staged.owned.loopStart entry among]
    have relation := ready.of_built arranged.laminar listed
    unfold PlacedLoop.Apart PlacedLoop.Inside at relation
    omega

end

end Structuring.LoopNest
