import Structuring.Proofs.LoopNest.Cutting

/-! The blocks that code is cut into.

A block of a program starts where a branch of a loop goes to or behind such a branch, so cutting the
code at these places gives back the blocks that its pieces were read into.
-/

namespace Structuring.LoopNest

open Bytecode Recovery FlowGraph

variable {index later other target address : Nat} {loop : PlacedLoop} {block : BlockPlan} {role : Role}
  {inst last : Instruction} {scaffold : Scaffold} {opcode : Opcode}

structure Arranged (typed : Bool) (loops : List PlacedLoop) (blocks : List BlockPlan) (finish : Nat) :
    Prop where
  laminar : Laminar loops
  fits : ∀ block ∈ blocks, block.Fits typed loops finish
  adjacent : ∀ (index : Nat) (inside : index + 1 < blocks.length),
    blocks[index].start < blocks[index].stop ∧ blocks[index].stop = blocks[index + 1].start
  first : ∃ block, blocks[0]? = some block ∧ block.start = 0
  last : ∀ (index : Nat) (inside : index < blocks.length), index + 1 = blocks.length →
    blocks[index].scaffold = none ∧ blocks[index].start = finish ∧ blocks[index].stop = finish
  branches : ∀ loop ∈ loops, ∀ role, (branchOf loop role).isSome = true →
    ∃ block ∈ blocks, ∃ ending, block.scaffold = some ⟨loop, role, ending⟩
  heads : ∀ loop ∈ loops, ∃ block ∈ blocks, block.start = loop.start
  exits : ∀ loop ∈ loops, loop.shape = .repeatLoop →
    ∃ block ∈ blocks, ∃ discard, block.lead = some (loop, discard)

theorem chained_adjacent {start stop : Nat} {blocks : List BlockPlan} {last : BlockPlan}
    (chained : Chained start blocks stop) (begins : last.start = stop) (index : Nat)
    (inside : index < blocks.length) :
    blocks[index].start < blocks[index].stop ∧
      (blocks ++ [last])[index + 1]?.map (·.start) = some blocks[index].stop := by
  induction blocks generalizing start index with
  | nil => exact absurd inside (Nat.not_lt_zero index)
  | cons block rest ih =>
    obtain ⟨_, grows, chained⟩ := chained
    cases index with
    | zero =>
      refine ⟨grows, ?_⟩
      cases rest with
      | nil => simp [begins, show block.stop = stop from chained]
      | cons second more => simp [chained.1]
    | succ index => exact ih chained index (Nat.lt_of_succ_lt_succ inside)

namespace Program

variable (typed : Bool) (program : Program)

def allPieces : List Piece := program.pieces typed 0 ++ [.steps [exit], .label]

def cutter : Cutter := Cutter.fresh.run (program.allPieces typed)

def blocks : List BlockPlan := (program.cutter typed).blocks

def finish : Nat := program.size typed + exit.size

end Program

theorem isStep_exit (address : Nat) : ∀ inst ∈ placeFrom address [exit], IsStep (address + exit.size) inst := by
  intro inst member
  rw [List.mem_singleton.mp member]
  exact ⟨rfl, rfl, fun _ => rfl⟩

/-- At the end of the code, the last block is closed and an empty one is open. -/
theorem Program.good_cutter (typed : Bool) (program : Program) :
    (program.cutter typed).Good typed (program.loops typed 0) (program.finish typed) ∧
      (program.cutter typed).place = program.finish typed ∧
      (program.cutter typed).start = program.finish typed ∧
      ∀ loop ∈ program.loops typed 0, Cutter.Built loop (program.cutter typed) := by
  obtain ⟨good, place, built⟩ := Cutter.Good.program program
    (Cutter.good_fresh : Cutter.fresh.Good typed (program.loops typed 0) (program.finish typed))
    fun _ => id
  rw [cutter, allPieces, Cutter.run_append, Cutter.run_cons, Cutter.run_cons, Cutter.run_nil]
  change (Cutter.fresh.run (program.pieces typed 0)).Good _ _ _ at good
  change (Cutter.fresh.run (program.pieces typed 0)).place = 0 + program.size typed at place
  change ∀ loop ∈ program.loops typed 0, Cutter.Built loop (Cutter.fresh.run (program.pieces typed 0)) at built
  generalize Cutter.fresh.run (program.pieces typed 0) = read at good place built ⊢
  have finishes : read.place + exit.size = program.finish typed := by
    rw [place, Nat.zero_add, finish]
  have goodExit : (read.step (.steps [exit])).Good typed (program.loops typed 0) (program.finish typed) :=
    good.steps (finishes ▸ isStep_exit read.place)
  obtain ⟨goodEnd, endPlace, endStart, _⟩ := goodExit.label (.inr finishes)
  refine ⟨goodEnd, endPlace.trans finishes, endStart.trans finishes, fun loop member => ?_⟩
  exact (built loop member).extend (good.extend [.steps [exit], .label])

theorem Program.arranged (typed : Bool) (program : Program) :
    Arranged typed (program.loops typed 0) (program.blocks typed) (program.finish typed) := by
  obtain ⟨good, place, start, built⟩ := program.good_cutter typed
  rw [blocks]
  generalize program.cutter typed = cutter at good place start built ⊢
  have size : cutter.blocks.length = cutter.closed.length + 1 := by simp [Cutter.blocks]
  refine ⟨program.laminar typed 0, fun block member => ?_, fun index inside => ?_, ?_,
    fun index inside isLast => ?_, fun loop member role has => ?_, fun loop member => (built loop member).head,
    fun loop member => (built loop member).exit⟩
  · rcases List.mem_append.mp member with old | last
    · exact good.closed block old
    · rw [List.mem_singleton.mp last]
      exact good.fits (fun _ same => absurd same (by simp)) fun _ => .inr place
  · have among : index < cutter.closed.length := by omega
    have isBlock : cutter.blocks[index] = cutter.closed[index] := List.getElem_append_left among
    obtain ⟨grows, next⟩ := chained_adjacent good.chained
      (rfl : (cutter.opened none).start = cutter.start) index among
    rw [isBlock]
    refine ⟨grows, ?_⟩
    rw [List.getElem?_eq_getElem (by simpa [Cutter.blocks] using inside)] at next
    exact (Option.some.inj next).symm
  · cases closed : cutter.closed with
    | nil =>
      have chained := good.chained
      rw [closed] at chained
      exact ⟨_, by simp [Cutter.blocks, closed]; rfl, chained.symm⟩
    | cons block rest =>
      have chained := good.chained
      rw [closed] at chained
      exact ⟨block, by simp [Cutter.blocks, closed], chained.1⟩
  · have last : cutter.blocks[index] = cutter.opened none := by
      have same : index = cutter.closed.length := by omega
      subst same
      simp [Cutter.blocks]
    rw [last]
    exact ⟨rfl, start, place⟩
  · obtain ⟨block, among, ending, isScaffold⟩ := (built loop member).branches role has
    exact ⟨block, List.mem_append_left _ among, ending, isScaffold⟩

/-! Starts of blocks -/

namespace Arranged

variable {typed : Bool} {loops : List PlacedLoop} {blocks : List BlockPlan} {finish : Nat}

section

variable (arranged : Arranged typed loops blocks finish)

include arranged

theorem start_le_stop (inside : index < blocks.length) : blocks[index].start ≤ blocks[index].stop := by
  have := (arranged.fits _ (List.getElem_mem inside)).stop
  omega

theorem stop_le_start (before : index < later) (inside : later < blocks.length) :
    blocks[index].stop ≤ blocks[later].start := by
  induction later with
  | zero => exact absurd before (Nat.not_lt_zero _)
  | succ later ih =>
    have next := (arranged.adjacent later inside).2
    rcases Nat.lt_or_eq_of_le (Nat.le_of_lt_succ before) with earlier | rfl
    · have := ih earlier (by omega)
      have := arranged.start_le_stop (Nat.lt_of_succ_lt inside)
      omega
    · exact Nat.le_of_eq next

theorem start_lt_start (before : index < later) (inside : later < blocks.length) :
    blocks[index].start < blocks[later].start := by
  have := arranged.stop_le_start before inside
  have := (arranged.adjacent index (by omega)).1
  omega

theorem start_le_start (before : index ≤ later) (inside : later < blocks.length) :
    blocks[index].start ≤ blocks[later].start := by
  rcases Nat.lt_or_eq_of_le before with earlier | rfl
  · exact Nat.le_of_lt (arranged.start_lt_start earlier inside)
  · exact Nat.le_refl _

theorem eq_of_start_eq (inside : index < blocks.length) (inside' : other < blocks.length)
    (same : blocks[index].start = blocks[other].start) : index = other := by
  rcases Nat.lt_trichotomy index other with before | here | after
  · exact absurd same (Nat.ne_of_lt (arranged.start_lt_start before inside'))
  · exact here
  · exact absurd same (Nat.ne_of_gt (arranged.start_lt_start after inside))

theorem eq_of_stop_eq (inside : index + 1 < blocks.length) (inside' : other + 1 < blocks.length)
    (same : blocks[index].stop = blocks[other].stop) : index = other := by
  rw [(arranged.adjacent index inside).2, (arranged.adjacent other inside').2] at same
  exact Nat.succ.inj (arranged.eq_of_start_eq inside inside' same)

theorem outside (inside : index < blocks.length) (inside' : other < blocks.length) :
    blocks[index].stop ≤ blocks[other].start ∨ blocks[other].start ≤ blocks[index].start := by
  rcases Nat.lt_or_ge index other with before | after
  · exact .inl (arranged.stop_le_start before inside')
  · rcases Nat.lt_or_eq_of_le after with before | rfl
    · exact .inr (Nat.le_of_lt (arranged.start_lt_start before inside))
    · exact .inr (Nat.le_refl _)

theorem next_of_scaffold (inside : index < blocks.length)
    (isScaffold : blocks[index].scaffold = some scaffold) : index + 1 < blocks.length := by
  refine Nat.lt_of_le_of_ne inside fun isLast => ?_
  have none := (arranged.last index inside isLast).1
  exact absurd (none.symm.trans isScaffold) (by simp)

theorem scaffold_at (inside : index < blocks.length) (isScaffold : blocks[index].scaffold = some scaffold) :
    scaffold.loop ∈ loops ∧ IsScaffold typed scaffold.loop scaffold.role scaffold.ending ∧
      blocks[index].Holds scaffold.loop scaffold.role :=
  (arranged.fits _ (List.getElem_mem inside)).scaffold scaffold isScaffold

theorem behind {ending : List Instruction} (inside : index < blocks.length)
    (isTail : blocks[index].scaffold = some ⟨loop, .tail, ending⟩) :
    ∃ next : index + 1 < blocks.length, blocks[index + 1].start = loop.stop := by
  have next := arranged.next_of_scaffold inside isTail
  obtain ⟨_, _, stop, _⟩ := arranged.scaffold_at inside isTail
  exact ⟨next, (arranged.adjacent index next).2.symm.trans stop⟩

theorem exists_scaffold (member : loop ∈ loops) (has : (branchOf loop role).isSome = true) :
    ∃ (index : Nat) (inside : index + 1 < blocks.length) (ending : List Instruction),
      blocks[index].scaffold = some ⟨loop, role, ending⟩ ∧
      IsScaffold typed loop role ending ∧ blocks[index].Holds loop role := by
  obtain ⟨block, among, ending, isScaffold⟩ := arranged.branches loop member role has
  obtain ⟨index, inside, rfl⟩ := List.getElem_of_mem among
  obtain ⟨_, isEnding, holds⟩ := (arranged.fits _ among).scaffold _ isScaffold
  exact ⟨index, arranged.next_of_scaffold inside isScaffold, ending, isScaffold, isEnding, holds⟩

end

theorem has_tail (loop : PlacedLoop) : (branchOf loop .tail).isSome = true := by
  unfold branchOf
  cases loop.shape <;> rfl

theorem exists_target (arranged : Arranged typed loops blocks finish) (member : loop ∈ loops)
    (isBranch : branchOf loop role = some (opcode, target)) :
    ∃ (index : Nat) (inside : index < blocks.length), blocks[index].start = target := by
  obtain ⟨tail, inside, _, _, _, stop, _, bare⟩ := arranged.exists_scaffold member (has_tail loop)
  have cases : target = loop.start ∨ target = loop.stop ∨ loop.shape = .withLoop ∧ target = loop.turn := by
    unfold branchOf at isBranch
    split at isBranch <;> simp_all
  rcases cases with rfl | rfl | ⟨isWith, rfl⟩
  · obtain ⟨block, among, start⟩ := arranged.heads loop member
    obtain ⟨index, inside, rfl⟩ := List.getElem_of_mem among
    exact ⟨index, inside, start⟩
  · exact ⟨tail + 1, inside, (arranged.adjacent tail inside).2.symm.trans stop⟩
  · exact ⟨tail, by omega, (bare isWith).1⟩

end Arranged

/-! Blocks that follow each other -/

section

variable {start middle stop : Nat}

theorem chained_append {first second : List BlockPlan} (early : Chained start first middle)
    (late : Chained middle second stop) : Chained start (first ++ second) stop := by
  induction first generalizing start with
  | nil => exact (show start = middle from early) ▸ late
  | cons block rest ih => exact ⟨early.1, early.2.1, ih early.2.2⟩

variable {blocks : List BlockPlan}

section

variable {block : BlockPlan} (chained : Chained start blocks stop)

include chained

theorem le_of_chained : start ≤ stop := by
  induction blocks generalizing start with
  | nil => exact Nat.le_of_eq chained
  | cons block rest ih =>
    obtain ⟨rfl, grows, chained⟩ := chained
    exact Nat.le_of_lt (Nat.lt_of_lt_of_le grows (ih chained))

theorem bounds_of_chained (member : block ∈ blocks) :
    start ≤ block.start ∧ block.start < block.stop ∧ block.stop ≤ stop := by
  induction blocks generalizing start with
  | nil => cases member
  | cons first rest ih =>
    obtain ⟨rfl, grows, chained⟩ := chained
    have ahead := le_of_chained chained
    rcases List.mem_cons.mp member with rfl | later
    · exact ⟨Nat.le_refl _, grows, ahead⟩
    · have := ih chained later
      omega

theorem sorted_of_chained : (blocks.map (·.start) ++ [stop]).Pairwise (· < ·) := by
  induction blocks generalizing start with
  | nil => exact List.pairwise_singleton _ _
  | cons first rest ih =>
    obtain ⟨rfl, grows, chained⟩ := chained
    refine List.pairwise_cons.mpr ⟨fun address member => ?_, ih chained⟩
    have ahead := le_of_chained chained
    show first.start < address
    rcases List.mem_append.mp member with later | last
    · obtain ⟨block, among, rfl⟩ := List.mem_map.mp later
      have := bounds_of_chained chained among
      omega
    · rw [List.mem_singleton.mp last]
      omega

theorem stop_mem_of_chained (member : block ∈ blocks) : block.stop ∈ blocks.map (·.start) ++ [stop] := by
  induction blocks generalizing start with
  | nil => cases member
  | cons first rest ih =>
    obtain ⟨rfl, grows, chained⟩ := chained
    refine List.mem_cons_of_mem _ ?_
    rcases List.mem_cons.mp member with rfl | later
    · cases rest with
      | nil => simp [show block.stop = stop from chained]
      | cons second more => simp [chained.1]
    · exact ih chained later

theorem start_of_chained (member : block ∈ blocks) :
    block.start = start ∨ ∃ earlier ∈ blocks, earlier.stop = block.start := by
  induction blocks generalizing start with
  | nil => cases member
  | cons first rest ih =>
    obtain ⟨rfl, grows, chained⟩ := chained
    rcases List.mem_cons.mp member with rfl | later
    · exact .inl rfl
    · rcases ih chained later with here | ⟨earlier, among, same⟩
      · exact .inr ⟨first, .head _, here.symm⟩
      · exact .inr ⟨earlier, .tail _ among, same⟩

/-- The place where blocks start is the start of one, or where they stop if there are none. -/
theorem start_mem_of_chained : start ∈ blocks.map (·.start) ++ [stop] := by
  cases blocks with
  | nil => simp [show start = stop from chained]
  | cons block rest => simp [chained.1]

end

end

/-! Cutting code -/

theorem address_lt_of_placed (placed : placeFrom block.start block.instructions = block.instructions)
    (stop : block.stop = block.start + extent block.instructions) (member : inst ∈ block.instructions) :
    block.start ≤ inst.address ∧ inst.address < block.stop := by
  rw [← placed] at member
  obtain ⟨after, before, _⟩ := mem_placeFrom member
  have := inst.address_lt_nextAddress
  omega

theorem nextAddress_of_getLast? {instructions : List Instruction}
    (placed : placeFrom address instructions = instructions) (isLast : instructions.getLast? = some last) :
    last.nextAddress = address + extent instructions := by
  obtain ⟨front, rfl⟩ := List.getLast?_eq_some_iff.mp isLast
  rw [placeFrom_append] at placed
  have same := (List.append_inj' placed rfl).2
  rw [placeFrom, placeFrom, List.cons.injEq] at same
  have address : last.address = _ := congrArg (·.address) same.1.symm
  rw [Instruction.nextAddress, address, extent_append, extent_cons, extent_nil]
  dsimp only
  omega

/-- Code whose blocks follow each other is cut into them at their starts. -/
theorem sliceAt_chained {start finish : Nat} {closed : List BlockPlan} (chained : Chained start closed finish)
    (placed : ∀ block ∈ closed, placeFrom block.start block.instructions = block.instructions ∧
      block.stop = block.start + extent block.instructions) :
    (∀ inst ∈ closed.flatMap (·.instructions), start ≤ inst.address) ∧
    sliceAt (closed.map (·.start) ++ [finish]) (closed.flatMap (·.instructions)) =
      closed.map (·.slice) ++ [(⟨finish, finish⟩, [])] := by
  induction closed generalizing start with
  | nil => exact ⟨List.forall_mem_nil _, rfl⟩
  | cons block rest ih =>
    obtain ⟨rfl, grows, chained⟩ := chained
    obtain ⟨isPlaced, stop⟩ := placed block (.head _)
    obtain ⟨later, slices⟩ := ih chained fun other member => placed other (.tail _ member)
    refine ⟨fun inst member => ?_, ?_⟩
    · rcases List.mem_append.mp member with here | after
      · exact (address_lt_of_placed isPlaced stop here).1
      · have := later inst after
        omega
    · obtain ⟨cuts, isCuts⟩ : ∃ cuts, rest.map (·.start) ++ [finish] = block.stop :: cuts := by
        cases rest with
        | nil => exact ⟨[], by rw [show block.stop = finish from chained]; rfl⟩
        | cons second more => exact ⟨_, by rw [List.map_cons, chained.1, List.cons_append]⟩
      have here : ∀ inst ∈ block.instructions, decide (inst.address < block.stop) = true :=
        fun inst member => decide_eq_true (address_lt_of_placed isPlaced stop member).2
      have none : ∀ inst ∈ rest.flatMap (·.instructions), ¬decide (inst.address < block.stop) = true :=
        fun inst member => by simpa using later inst member
      rw [isCuts] at slices
      rw [List.map_cons, List.cons_append, isCuts, List.flatMap_cons, sliceAt,
        List.takeWhile_append_of_pos here, List.dropWhile_append_of_pos here, List.map_cons,
        List.cons_append, ← slices]
      have stays : (rest.flatMap (·.instructions)).takeWhile (·.address < block.stop) = [] ∧
          (rest.flatMap (·.instructions)).dropWhile (·.address < block.stop) =
            rest.flatMap (·.instructions) := by
        generalize rest.flatMap (·.instructions) = more at none
        cases more with
        | nil => exact ⟨rfl, rfl⟩
        | cons first _ =>
          have first := none first (.head _)
          exact ⟨by simp only [List.takeWhile_cons, first, Bool.false_eq_true, ↓reduceIte],
            by simp only [List.dropWhile_cons, first, Bool.false_eq_true, ↓reduceIte]⟩
      rw [stays.1, stays.2, List.append_nil]
      rfl

theorem eq_of_sorted {first second : List Nat} (sortedFirst : first.Pairwise (· < ·))
    (sortedSecond : second.Pairwise (· < ·)) (same : ∀ value, value ∈ first ↔ value ∈ second) :
    first = second := by
  have distinct {list : List Nat} (sorted : list.Pairwise (· < ·)) : list.Nodup := sorted.imp Nat.ne_of_lt
  refine List.Perm.eq_of_pairwise (fun a b _ _ less more => ?_) sortedFirst sortedSecond
    ((List.perm_ext_iff_of_nodup (distinct sortedFirst) (distinct sortedSecond)).mpr same)
  omega

structure CutInto (code : Code) (closed : List BlockPlan) (finish : Nat) : Prop where
  chained : Chained 0 closed finish
  placed : ∀ block ∈ closed, placeFrom block.start block.instructions = block.instructions ∧
    block.stop = block.start + extent block.instructions
  instructions : code.instructions = closed.flatMap (·.instructions)
  length : code.length = finish
  childless : code.children = []
  cuts : ∀ block ∈ closed, ∀ inst ∈ block.instructions, ∀ cut ∈ instructionCuts inst,
    cut ∈ closed.map (·.start) ++ [finish]
  starts : ∀ block ∈ closed, block.start = 0 ∨ block.start = finish ∨
    ∃ inst ∈ closed.flatMap (·.instructions), block.start ∈ instructionCuts inst

namespace CutInto

variable {code : Code} {closed : List BlockPlan} {finish : Nat} (made : CutInto code closed finish)
include made

theorem cutPoints_eq : cutPoints code = closed.map (·.start) ++ [finish] := by
  refine eq_of_sorted (sorted_cutPoints code) (sorted_of_chained made.chained) fun cut => ?_
  rw [cutPoints, mem_foldr_insertCut, made.instructions, made.length, made.childless]
  simp only [List.map_nil, List.filter_nil, List.append_nil, List.mem_cons]
  constructor
  · rintro (rfl | rfl | isCut)
    · exact start_mem_of_chained made.chained
    · simp
    · obtain ⟨inst, member, isCut⟩ := List.mem_flatMap.mp isCut
      obtain ⟨block, isBlock, among⟩ := List.mem_flatMap.mp member
      exact made.cuts block isBlock inst among cut isCut
  · intro isStart
    rcases List.mem_append.mp isStart with isStart | last
    · obtain ⟨block, isBlock, rfl⟩ := List.mem_map.mp isStart
      rw [List.mem_flatMap]
      exact made.starts block isBlock
    · exact .inr (.inl (List.mem_singleton.mp last))

theorem sliceAt_eq : sliceAt (cutPoints code) code.instructions =
    closed.map (·.slice) ++ [(⟨finish, finish⟩, [])] := by
  rw [made.cutPoints_eq, made.instructions]
  exact (sliceAt_chained made.chained made.placed).2

/-- An instruction stands where a block starts, unless the code ends there. -/
theorem isBoundary (isStart : address ∈ closed.map (·.start) ++ [finish]) : code.isBoundary address = true := by
  rw [Code.isBoundary, Bool.or_eq_true, beq_iff_eq]
  rcases List.mem_append.mp isStart with isStart | last
  · obtain ⟨block, isBlock, rfl⟩ := List.mem_map.mp isStart
    right
    obtain ⟨placed, stop⟩ := made.placed block isBlock
    have grows := (bounds_of_chained made.chained isBlock).2.1
    cases isInstructions : block.instructions with
    | nil => exact absurd stop (by rw [isInstructions, extent_nil]; omega)
    | cons first rest =>
      rw [isInstructions, placeFrom, List.cons.injEq] at placed
      have start : first.address = block.start := congrArg (·.address) placed.1.symm
      rw [Code.indexAt?, List.findIdx?_isSome, made.instructions]
      exact List.any_eq_true.mpr ⟨first, List.mem_flatMap.mpr ⟨block, isBlock, isInstructions ▸ .head _⟩,
        beq_iff_eq.mpr start⟩
  · exact .inl (made.length ▸ List.mem_singleton.mp last)

theorem cutFailure?_eq_none : cutFailure? code = none := by
  rw [cutFailure?, Option.or_eq_none_iff, made.childless]
  refine ⟨List.findSome?_eq_none_iff.mpr fun inst member => ?_, rfl⟩
  refine Option.bind_eq_none_iff.mpr fun target goes => if_pos ?_
  rw [made.instructions] at member
  obtain ⟨block, isBlock, among⟩ := List.mem_flatMap.mp member
  exact made.isBoundary (made.cuts block isBlock inst among target (by simp [instructionCuts, goes]))

end CutInto

namespace Cutter

def read (cutter : Cutter) : List Instruction := cutter.blocks.flatMap (·.instructions)

theorem place_step (cutter : Cutter) (piece : Piece) :
    (cutter.step piece).place = cutter.place + extent piece.instructions := by
  cases piece with
  | label =>
    rw [step]
    split <;> rfl
  | steps instructions => rfl
  | scaffold loop role ending discard => simp [step, Piece.instructions, Nat.add_assoc]

theorem read_step (cutter : Cutter) (piece : Piece) :
    (cutter.step piece).read = cutter.read ++ placeFrom cutter.place piece.instructions := by
  cases piece with
  | label =>
    rw [step]
    split
    · exact (List.append_nil _).symm
    · simp [read, blocks, Piece.instructions, placeFrom, BlockPlan.instructions_eq, opened]
  | steps instructions =>
    simp [read, blocks, step, Piece.instructions, BlockPlan.instructions_eq, opened]
  | scaffold loop role ending discard =>
    cases discard <;>
      simp [read, blocks, step, Piece.instructions, BlockPlan.instructions_eq, opened, placeFrom]

theorem read_run (cutter : Cutter) (pieces : List Piece) :
    (cutter.run pieces).read = cutter.read ++ placeFrom cutter.place (instructionsOf pieces) := by
  induction pieces generalizing cutter with
  | nil => exact (List.append_nil _).symm
  | cons piece rest ih =>
    rw [run_cons, ih, read_step, place_step, instructionsOf_cons, placeFrom_append, List.append_assoc]

end Cutter

theorem Program.instructions_code (typed : Bool) (program : Program) (name : String) (symbols : Symbols) :
    (program.code typed name symbols).instructions = (program.blocks typed).flatMap (·.instructions) := by
  have reads := Cutter.fresh.read_run (program.allPieces typed)
  rw [allPieces, instructionsOf_append] at reads
  exact reads.symm

theorem mem_instructions :
    inst ∈ block.instructions ↔ (∃ loop, block.lead = some (loop, inst)) ∨ inst ∈ block.middle ∨
      ∃ scaffold, block.scaffold = some scaffold ∧ inst ∈ scaffold.ending := by
  cases isLead : block.lead with
  | none => cases isScaffold : block.scaffold <;>
      simp [BlockPlan.instructions_eq, isLead, isScaffold]
  | some lead => cases isScaffold : block.scaffold <;>
      simp [BlockPlan.instructions_eq, isLead, isScaffold, eq_comm, Prod.ext_iff]

theorem IsScaffold.branchTarget? {typed : Bool} {ending : List Instruction}
    (isScaffold : IsScaffold typed loop role ending) :
    ∃ last opcode target, ending.getLast? = some last ∧ branchOf loop role = some (opcode, target) ∧
      last.opcode = opcode ∧ last.branchTarget? = some target := by
  obtain ⟨last, opcode, target, isLast, isBranch, sameOpcode, operand⟩ := isScaffold.branches
  refine ⟨last, opcode, target, isLast, isBranch, sameOpcode, ?_⟩
  have branches : opcode.isBranch = true := by
    unfold branchOf at isBranch
    split at isBranch <;> cases isBranch <;> rfl
  rw [Instruction.branchTarget?, operand, sameOpcode]
  exact if_pos branches

namespace Arranged

variable {typed : Bool} {loops : List PlacedLoop} {blocks : List BlockPlan} {finish : Nat}

section

variable (arranged : Arranged typed loops blocks finish)

include arranged

theorem nextAddress_last (member : block ∈ blocks) (isScaffold : block.scaffold = some scaffold)
    (isLast : scaffold.ending.getLast? = some last) : last.nextAddress = block.stop := by
  have fits := arranged.fits block member
  rw [fits.stop]
  refine nextAddress_of_getLast? fits.placed ?_
  obtain ⟨front, same⟩ := List.getLast?_eq_some_iff.mp isLast
  simp [BlockPlan.instructions_eq, isScaffold, same]

theorem finish_mem : finish ∈ blocks.map (·.start) := by
  obtain ⟨block, isFirst, _⟩ := arranged.first
  have bound := (List.getElem?_eq_some_iff.mp isFirst).1
  have start := (arranged.last (blocks.length - 1) (by omega) (by omega)).2.1
  exact List.mem_map.mpr ⟨_, List.getElem_mem (by omega), start⟩

theorem start_mem_of_cut (member : block ∈ blocks) (among : inst ∈ block.instructions) {cut : Nat}
    (isCut : cut ∈ instructionCuts inst) : cut ∈ blocks.map (·.start) := by
  have fits := arranged.fits block member
  have returns (straight : inst.isBranch = false) (returns : inst.isReturn = true → inst.nextAddress = finish) :
      cut ∈ blocks.map (·.start) := by
    have noTarget := Option.isNone_iff_eq_none.mp (Option.isSome_eq_false_iff.mp straight)
    rw [instructionCuts, noTarget] at isCut
    dsimp only at isCut
    split at isCut
    · next isReturn =>
      rw [List.mem_singleton.mp isCut, returns isReturn]
      exact arranged.finish_mem
    · cases isCut
  have goesOn (straight : IsStraight inst) : cut ∈ blocks.map (·.start) :=
    returns straight.1 fun isReturn => absurd (straight.2.2.symm.trans isReturn) Bool.false_ne_true
  rcases mem_instructions.mp among with ⟨loop, isLead⟩ | inMiddle | ⟨scaffold, isScaffold, inEnding⟩
  · obtain ⟨_, _, _, opcode⟩ := fits.lead loop inst isLead
    exact goesOn (isStraight_of_opcode (by simp [opcode, Opcode.isBranch])
      (by simp [Instruction.isReturn, opcode]))
  · exact returns (fits.middle inst inMiddle).straight (fits.middle inst inMiddle).returns
  · obtain ⟨loopMember, isEnding, _⟩ := fits.scaffold scaffold isScaffold
    obtain ⟨last, opcode, target, isLast, isBranch, _, goes⟩ := isEnding.branchTarget?
    obtain ⟨front, same⟩ := List.getLast?_eq_some_iff.mp isLast
    rw [same] at inEnding
    rcases List.mem_append.mp inEnding with early | late
    · exact goesOn (isEnding.before inst (by rw [same, List.dropLast_concat]; exact early)).1
    · rw [List.mem_singleton.mp late, instructionCuts, goes] at isCut
      simp only [List.mem_cons, List.not_mem_nil, or_false] at isCut
      rcases isCut with rfl | rfl
      · obtain ⟨index, inside, start⟩ := arranged.exists_target loopMember isBranch
        exact List.mem_map.mpr ⟨_, List.getElem_mem inside, start⟩
      · obtain ⟨index, inside, rfl⟩ := List.getElem_of_mem member
        have next := arranged.next_of_scaffold inside isScaffold
        rw [arranged.nextAddress_last member isScaffold isLast, (arranged.adjacent index next).2]
        exact List.mem_map_of_mem (List.getElem_mem next)

theorem exists_branch (member : loop ∈ loops) (isBranch : branchOf loop role = some (opcode, target)) :
    ∃ inst ∈ blocks.flatMap (·.instructions), target ∈ instructionCuts inst := by
  obtain ⟨index, inside, ending, isScaffold, isEnding, _⟩ :=
    arranged.exists_scaffold member (Option.isSome_iff_exists.mpr ⟨_, isBranch⟩)
  obtain ⟨last, _, _, isLast, same, _, goes⟩ := isEnding.branchTarget?
  rw [isBranch] at same
  cases same
  refine ⟨last, List.mem_flatMap.mpr ⟨_, List.getElem_mem (Nat.lt_of_succ_lt inside), ?_⟩, ?_⟩
  · exact mem_instructions.mpr (.inr (.inr ⟨_, isScaffold, List.mem_of_getLast? isLast⟩))
  · simp [instructionCuts, goes]

/-- A block starts where the code starts or ends, where a branch goes to, or behind a branch. -/
theorem cut_of_start
    (inside : index < blocks.length) : blocks[index].start = 0 ∨ blocks[index].start = finish ∨
      ∃ inst ∈ blocks.flatMap (·.instructions), blocks[index].start ∈ instructionCuts inst := by
  cases index with
  | zero =>
    obtain ⟨block, isFirst, start⟩ := arranged.first
    rw [List.getElem?_eq_getElem inside] at isFirst
    exact .inl (Option.some.inj isFirst ▸ start)
  | succ index =>
    have member : blocks[index] ∈ blocks := List.getElem_mem _
    have fits := arranged.fits blocks[index] member
    rw [← (arranged.adjacent index inside).2]
    cases isScaffold : blocks[index].scaffold with
    | none =>
      rcases fits.closes isScaffold with ⟨loop, loopMember, here | ⟨isWith, here⟩⟩ | ends
      · have has := Arranged.has_tail loop
        obtain ⟨opcode, target, isBranch⟩ : ∃ opcode target, branchOf loop .tail = some (opcode, target) := by
          obtain ⟨pair, isPair⟩ := Option.isSome_iff_exists.mp has
          exact ⟨pair.1, pair.2, isPair⟩
        have back : target = loop.start := by
          unfold branchOf at isBranch
          split at isBranch <;> simp_all
        rw [here, ← back]
        exact .inr (.inr (arranged.exists_branch loopMember isBranch))
      · rw [here]
        have isBranch : branchOf loop .prelude = some (.pushenv, loop.turn) := by
          simp [branchOf, isWith]
        exact .inr (.inr (arranged.exists_branch loopMember isBranch))
      · exact .inr (.inl ends)
    | some scaffold =>
      obtain ⟨_, isEnding, _⟩ := fits.scaffold scaffold isScaffold
      obtain ⟨last, _, target, isLast, _, _, goes⟩ := isEnding.branchTarget?
      refine .inr (.inr ⟨last, List.mem_flatMap.mpr ⟨_, member, ?_⟩, ?_⟩)
      · exact mem_instructions.mpr (.inr (.inr ⟨_, isScaffold, List.mem_of_getLast? isLast⟩))
      · rw [← arranged.nextAddress_last member isScaffold isLast]
        simp [instructionCuts, goes]

end

end Arranged

/-! The code entry of a program -/

theorem inOrder_placeFrom (address : Nat) (instructions : List Instruction) :
    InOrder (placeFrom address instructions) := by
  induction instructions generalizing address with
  | nil => exact .nil
  | cons inst rest ih =>
    refine List.pairwise_cons.mpr ⟨fun later member => ?_, ih _⟩
    exact (mem_placeFrom member).1

namespace Program

variable (typed : Bool) (program : Program) (name : String) (symbols : Symbols)

theorem inOrder_code : InOrder (program.code typed name symbols).instructions := inOrder_placeFrom _ _

theorem opened_cutter : ((program.cutter typed).opened none).slice =
    (⟨program.finish typed, program.finish typed⟩, []) := by
  obtain ⟨good, place, start, _⟩ := program.good_cutter typed
  obtain ⟨noLead, noMiddle⟩ := good.empty (start.trans place.symm)
  simp [BlockPlan.slice, BlockPlan.instructions_eq, Cutter.opened, noLead, noMiddle, start, place]

theorem cutInto_code : CutInto (program.code typed name symbols) (program.cutter typed).closed (program.finish typed) := by
  obtain ⟨good, _, start, _⟩ := program.good_cutter typed
  have arranged := program.arranged typed
  have empty : ((program.cutter typed).opened none).instructions = [] := congrArg Prod.snd (program.opened_cutter typed)
  have starts : (program.blocks typed).map (·.start) =
      (program.cutter typed).closed.map (·.start) ++ [program.finish typed] := by
    simp [blocks, Cutter.blocks, Cutter.opened, start]
  have instructions : (program.blocks typed).flatMap (·.instructions) =
      (program.cutter typed).closed.flatMap (·.instructions) := by
    simp [blocks, Cutter.blocks, empty]
  have isBlock {block : BlockPlan} (member : block ∈ (program.cutter typed).closed) : block ∈ program.blocks typed :=
    List.mem_append_left _ member
  have chained := good.chained
  rw [start] at chained
  refine ⟨chained, fun block member => ?_, ?_, rfl, rfl, fun block member inst among cut isCut => ?_,
    fun block member => ?_⟩
  · exact ⟨(good.closed block member).placed, (good.closed block member).stop⟩
  · rw [← instructions, program.instructions_code]
  · rw [← starts]
    exact arranged.start_mem_of_cut (isBlock member) among isCut
  · obtain ⟨index, inside, same⟩ := List.getElem_of_mem (isBlock member)
    rw [← instructions, ← same]
    exact arranged.cut_of_start inside

theorem sliceAt_code :
    sliceAt (cutPoints (program.code typed name symbols)) (program.code typed name symbols).instructions =
      (program.blocks typed).map (·.slice) := by
  rw [(program.cutInto_code typed name symbols).sliceAt_eq, ← program.opened_cutter typed, blocks, Cutter.blocks,
    List.map_append, List.map_singleton]

end Program

end Structuring.LoopNest
