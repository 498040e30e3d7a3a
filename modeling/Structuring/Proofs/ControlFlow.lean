import Structuring.Proofs.Passes.Layout
import Structuring.Proofs.Wiring

/-! Blocks as control flow.

An entry is cut into blocks unless a branch goes, or a nested function starts, where no instruction does.
The blocks of an assembled entry hold its instructions between them, and each leads exactly to where its
last instruction lets control go.
-/

namespace Structuring

open Bytecode Recovery FlowGraph

variable {address : Nat} {inst : Instruction} {failure : Failure} {instructions : List Instruction}

/-! Entries that cannot be cut -/

/-- An address where an instruction starts or the entry ends. -/
def Bytecode.Code.Starts (code : Code) (address : Nat) : Prop :=
  address = code.length ∨ ∃ inst ∈ code.instructions, inst.address = address

theorem isBoundary_iff_starts {code : Code} : code.isBoundary address = true ↔ code.Starts address := by
  simp [Code.isBoundary, Code.indexAt?, Code.Starts, List.findIdx?_isSome]

theorem targetFailure?_eq_none_iff {code : Code} :
    targetFailure? code inst = none ↔ ∀ target, inst.branchTarget? = some target → code.Starts target := by
  unfold targetFailure?
  cases inst.branchTarget? with
  | none => simp
  | some target => simp [← isBoundary_iff_starts]

theorem childFailure?_eq_none_iff {code : Code} {child : ChildEntry} :
    childFailure? code child = none ↔ (child.start ≠ 0 → code.Starts child.start) := by
  unfold childFailure?
  split
  · next fits => simpa [isBoundary_iff_starts, or_iff_not_imp_left] using fits
  · next fails => simpa [isBoundary_iff_starts, not_or] using fails

theorem cutFailure?_eq_none_iff {code : Code} :
    cutFailure? code = none ↔
      (∀ inst ∈ code.instructions, ∀ target, inst.branchTarget? = some target → code.Starts target) ∧
        ∀ child ∈ code.children, child.start ≠ 0 → code.Starts child.start := by
  simp only [cutFailure?, Option.or_eq_none_iff, List.findSome?_eq_none_iff, targetFailure?_eq_none_iff,
    childFailure?_eq_none_iff]

/-- What is wrong with an entry that is not cut is known before there are blocks. -/
theorem ne_missingBlock_of_cutFailure? {code : Code}
    (found : cutFailure? code = some failure) (range : AddressRange) (target : Nat) :
    failure ≠ .malformed range (.missingBlock target) := by
  rintro rfl
  rcases Option.or_eq_some_iff.mp found with isTarget | ⟨_, isChild⟩
  · obtain ⟨inst, _, fails⟩ := List.exists_of_findSome?_eq_some isTarget
    obtain ⟨address, _, fails⟩ := Option.bind_eq_some_iff.mp fails
    split at fails <;> cases fails
  · obtain ⟨child, _, fails⟩ := List.exists_of_findSome?_eq_some isChild
    unfold childFailure? at fails
    split at fails <;> cases fails

theorem run_buildBlocks_of_cutFailure? {source : Source} (claims : Claims)
    (log : Array Event) (found : cutFailure? source.code = some failure) :
    (buildBlocks source).run { claims, log } = .error failure { claims, log } := by
  simp only [buildBlocks, found]
  rfl

/-- Block building fails exactly if a branch goes, or a nested function starts, where no instruction
does. Then nothing has been done. -/
theorem fails_buildBlocks_iff (features : Features) (claims : Claims) (log : Array Event) {code : Code}
    (rising : Rising code.instructions) :
    ((∃ failure next, (buildBlocks ⟨code, features⟩).run { claims, log } = .error failure next) ↔
      (∃ inst ∈ code.instructions, ∃ target, inst.branchTarget? = some target ∧ ¬code.Starts target) ∨
        ∃ child ∈ code.children, child.start ≠ 0 ∧ ¬code.Starts child.start) ∧
      ∀ failure next, (buildBlocks ⟨code, features⟩).run { claims, log } = .error failure next →
        next = { claims, log } ∧ ∀ range target, failure ≠ .malformed range (.missingBlock target) := by
  have misplaced : ((∃ inst ∈ code.instructions, ∃ target, inst.branchTarget? = some target ∧
      ¬code.Starts target) ∨ ∃ child ∈ code.children, child.start ≠ 0 ∧ ¬code.Starts child.start) ↔
      cutFailure? code ≠ none := by
    simp only [ne_eq, cutFailure?_eq_none_iff, not_and_or, not_forall, exists_prop]
  rw [misplaced]
  cases found : cutFailure? code with
  | none =>
    have builds : Succeeds (buildBlocks ⟨code, features⟩) { claims, log } _ :=
      reaches_buildBlocks rising rfl fun _ => found
    obtain ⟨changed, final, done, _⟩ := builds.ok
    simp [done]
  | some failure =>
    have failed : (buildBlocks ⟨code, features⟩).run { claims, log } = .error failure { claims, log } :=
      run_buildBlocks_of_cutFailure? claims log found
    rw [failed]
    refine ⟨by simp, fun other next same => ?_⟩
    cases same
    exact ⟨rfl, ne_missingBlock_of_cutFailure? found⟩

def overlapping : Code :=
  { name := "entry"
    instructions := [⟨0, .push, .int32, .int32, .int32 5⟩, ⟨4, .b, .int32, .int32, .branch 6⟩]
    length := 5
    children := [⟨"inner", 4, 0⟩]
    symbols := {} }

theorem fails_buildBlocks_iff_overlapping :
    Rising overlapping.instructions ∧ ∃ failure, (buildBlocks ⟨overlapping, ⟨31⟩⟩).run {} = .error failure {} := by
  have rising : Rising overlapping.instructions := by simp [Rising, overlapping]
  obtain ⟨fails, unchanged⟩ := fails_buildBlocks_iff ⟨31⟩ {} #[] rising
  obtain ⟨failure, next, failed⟩ := fails.mpr
    (.inl ⟨⟨4, .b, .int32, .int32, .branch 6⟩, by simp [overlapping], 6, rfl, by simp [Code.Starts, overlapping]⟩)
  obtain ⟨rfl, _⟩ := unchanged failure next failed
  exact ⟨rising, failure, failed⟩

/-! Slices that follow each other -/

theorem flatMap_sliceAt {cuts : List Nat}
    (inside : ∀ inst ∈ instructions, ∃ last, cuts.getLast? = some last ∧ inst.address < last) :
    (sliceAt cuts instructions).flatMap (·.2) = instructions := by
  fun_induction sliceAt cuts instructions with
  | case1 insts =>
    refine (List.eq_nil_iff_forall_not_mem.mpr fun inst member => ?_).symm
    obtain ⟨_, isLast, _⟩ := inside inst member
    cases isLast
  | case2 last insts =>
    rw [List.flatMap_singleton]
    refine List.takeWhile_eq_self_iff.mpr fun inst member => ?_
    obtain ⟨_, isLast, before⟩ := inside inst member
    cases isLast
    exact decide_eq_true before
  | case3 start stop rest insts ih =>
    rw [List.flatMap_cons, ih fun inst member => ?_, List.takeWhile_append_dropWhile]
    simpa using inside inst ((List.dropWhile_sublist _).subset member)

/-! Cuts of an assembled entry -/

theorem Bytecode.Fills.starts {start stop : Nat} (fills : Fills start stop (instructions.map (·.span))) :
    (start = stop ∨ ∃ inst ∈ instructions, inst.address = start) ∧
      ∀ inst ∈ instructions, inst.nextAddress = stop ∨ ∃ other ∈ instructions, other.address = inst.nextAddress := by
  induction instructions generalizing start with
  | nil => exact ⟨.inl fills, List.forall_mem_nil _⟩
  | cons first rest ih =>
    obtain ⟨here, fills⟩ := fills
    obtain ⟨onward, ends⟩ := ih fills
    refine ⟨.inr ⟨first, .head _, here⟩, fun inst member => ?_⟩
    have among : ∀ {address}, (∃ other ∈ rest, other.address = address) →
        ∃ other ∈ first :: rest, other.address = address := by
      rintro _ ⟨other, among, same⟩
      exact ⟨other, .tail _ among, same⟩
    rcases List.mem_cons.mp member with rfl | later
    · exact onward.imp_right among
    · exact (ends inst later).imp_right among

theorem InOrder.nextAddress_le (ordered : InOrder instructions)
    {other : Instruction} (member : inst ∈ instructions) (among : other ∈ instructions)
    (before : inst.address < other.address) : inst.nextAddress ≤ other.address := by
  obtain ⟨index, inside, rfl⟩ := List.getElem_of_mem member
  obtain ⟨place, bound, rfl⟩ := List.getElem_of_mem among
  have pairs := List.pairwise_iff_getElem.mp ordered
  rcases Nat.lt_trichotomy index place with less | rfl | more
  · exact pairs index place inside bound less
  · exact absurd before (Nat.lt_irrefl _)
  · have follows := pairs place index bound inside more
    have := instructions[place].address_lt_nextAddress
    omega

structure Bytecode.Code.Gapless (code : Code) : Prop where
  fills : Fills 0 code.length (code.instructions.map (·.span))
  aims : ∀ inst ∈ code.instructions, inst.Aims
  cuts : cutFailure? code = none

theorem gapless_of_assemble {name listing : String} {code : Code}
    (assembled : Assembly.assemble name listing = .ok code) : code.Gapless := by
  obtain ⟨layout, makes⟩ := Assembly.makes_of_assemble assembled
  refine ⟨makes.fills, (Assembly.assembled_of_assemble assembled).aims,
    cutFailure?_eq_none_iff.mpr ⟨fun inst member target goes => ?_, fun child member _ => ?_⟩⟩
  · obtain ⟨_, _, draft, _, _, _, _, isTerm | ⟨_, address, _, isOperand, place⟩⟩ := makes.written member
    · unfold Instruction.branchTarget? at goes
      split at goes
      · next isOperand => exact absurd isTerm (by simp [isOperand, Operand.term?])
      · cases goes
    · have same : address = target := by
        simp only [Instruction.branchTarget?, isOperand] at goes
        split at goes <;> cases goes
        rfl
      exact isBoundary_iff_starts.mp (same ▸ makes.isBoundary place)
  · exact isBoundary_iff_starts.mp (makes.isBoundary (makes.lays.child child (makes.children ▸ member)))

namespace Bytecode.Code.Gapless

variable {code : Code} (gapless : code.Gapless)

include gapless

theorem ordered : InOrder code.instructions := gapless.fills.inOrder.1

theorem starts_of_mem_cutPoints {cut : Nat} (isCut : cut ∈ cutPoints code) : code.Starts cut := by
  obtain ⟨zero, ends⟩ := gapless.fills.starts
  obtain ⟨targets, children⟩ := cutFailure?_eq_none_iff.mp gapless.cuts
  simp only [cutPoints, mem_foldr_insertCut, List.mem_append, List.mem_cons, List.mem_flatMap,
    List.mem_filter, List.mem_map] at isCut
  rcases isCut with (rfl | rfl | ⟨inst, member, isCut⟩) | ⟨⟨child, member, rfl⟩, apart⟩
  · exact zero
  · exact .inl rfl
  · unfold instructionCuts at isCut
    split at isCut
    · next target goes =>
      rcases List.mem_pair.mp isCut with rfl | rfl
      · exact targets inst member _ goes
      · exact ends inst member
    · split at isCut
      · exact List.mem_singleton.mp isCut ▸ ends inst member
      · cases isCut
  · exact children child member (by simpa using apart)

theorem le_length_of_starts (starts : code.Starts address) : address ≤ code.length := by
  rcases starts with rfl | ⟨inst, member, rfl⟩
  · exact Nat.le_refl _
  · exact Nat.le_trans (Nat.le_of_lt inst.address_lt_nextAddress) (gapless.fills.inOrder.2.2 inst member).2

theorem getLast?_cutPoints : (cutPoints code).getLast? = some code.length := by
  have isCut : code.length ∈ cutPoints code := mem_foldr_insertCut.mpr (.tail _ (.head _))
  have most (cut : Nat) (member : cut ∈ cutPoints code) : cut ≤ code.length :=
    gapless.le_length_of_starts (gapless.starts_of_mem_cutPoints member)
  have sorted := sorted_cutPoints code
  rcases List.eq_nil_or_concat (cutPoints code) with isNil | ⟨init, last, isConcat⟩
  · exact absurd (isNil ▸ isCut) List.not_mem_nil
  · rw [List.concat_eq_append] at isConcat
    rw [isConcat] at isCut sorted most ⊢
    have atMost := most last (by simp)
    rcases List.mem_append.mp isCut with before | same
    · have := (List.pairwise_append.mp sorted).2.2 _ before last (.head _)
      omega
    · rw [List.getLast?_concat, List.mem_singleton.mp same]

/-- An instruction that starts before an address where another one may start ends before it. -/
theorem nextAddress_le (member : inst ∈ code.instructions)
    (starts : code.Starts address) (before : inst.address < address) : inst.nextAddress ≤ address := by
  rcases starts with rfl | ⟨other, among, rfl⟩
  · exact (gapless.fills.inOrder.2.2 inst member).2
  · exact gapless.ordered.nextAddress_le member among before

end Bytecode.Code.Gapless

/-! Blocks and where they lead -/

namespace Recovery

/-- The block that control falls into from a block: the next one, unless a jump or a return is last. -/
def Context.fallsInto (context : Context) (index : Nat) (block : NodeId) : List NodeId :=
  if (context.graph.node block).lastOpcode? ∈ [some .b, some .ret, some .exit] then []
  else context.blocks[index + 1]?.toList

/-- Blocks that hold the instructions of an entry between them, each linked to where control goes. -/
structure Context.FlowsAs (code : Code) (context : Context) : Prop where
  increasing : context.Increasing
  first : ∃ block, context.blocks.head? = some block ∧ (context.graph.node block).start = 0
  joined : ∀ (index : Nat) (inside : index + 1 < context.blocks.length),
    (context.graph.node context.blocks[index]).stop = (context.graph.node context.blocks[index + 1]).start
  last : ∃ block, context.blocks.getLast? = some block ∧
    (context.graph.node block).range = ⟨code.length, code.length⟩ ∧
    (context.graph.node block).instructions = []
  whole : context.blocks.flatMap (fun block => (context.graph.node block).instructions) = code.instructions
  within : ∀ block ∈ context.blocks, ∀ inst ∈ (context.graph.node block).instructions,
    (context.graph.node block).start ≤ inst.address ∧ inst.nextAddress ≤ (context.graph.node block).stop
  straight : ∀ block ∈ context.blocks, ∀ inst ∈ (context.graph.node block).instructions.dropLast,
    inst.isBranch = false ∧ inst.isReturn = false
  falls : ∀ (index : Nat) (inside : index < context.blocks.length),
    (context.graph.node context.blocks[index]).target? = none →
      (context.graph.node context.blocks[index]).successors = context.fallsInto index context.blocks[index]
  branches : ∀ (index : Nat) (inside : index < context.blocks.length) (target : Nat),
    (context.graph.node context.blocks[index]).target? = some target →
      ∃ other ∈ context.blocks, (context.graph.node other).start = target ∧
        (context.graph.node context.blocks[index]).successors =
          context.fallsInto index context.blocks[index] ++ [other]

/-- In an assembled entry, control goes on from a block unless it ends in a jump or a return. -/
theorem fallsThrough_iff {node : Node} (aims : ∀ inst ∈ node.instructions, inst.Aims) :
    fallsThrough node = true ↔ node.lastOpcode? ∉ [some .b, some .ret, some .exit] := by
  unfold fallsThrough Node.lastOpcode?
  cases isLast : node.last? with
  | none => simp
  | some inst =>
    have aimed := aims inst (List.mem_of_getLast? isLast)
    have jumps : inst.isJump = true ↔ inst.opcode = .b := by
      rw [Instruction.isJump, Bool.and_eq_true, beq_iff_eq, and_iff_left_iff_imp]
      intro isJump
      exact (aimed (by rw [isJump]; rfl)).resolve_right (by simp [isJump])
    have returns : inst.isReturn = true ↔ inst.opcode = .ret ∨ inst.opcode = .exit := by
      simp [Instruction.isReturn]
    simp [← jumps, ← returns, not_or]

namespace Context.Blocked

variable {code : Code} {context : Context}
  (blocked : context.Blocked code.slices)

include blocked

theorem node_eq {block : NodeId} (member : block ∈ context.blocks) :
    ∃ slice ∈ code.slices, (context.graph.node block).start = slice.1.start ∧
      (context.graph.node block).stop = slice.1.stop ∧ (context.graph.node block).instructions = slice.2 := by
  have inside := List.mem_range.mp (blocked.blocks_eq ▸ member)
  have core := blocked.core block inside
  exact ⟨_, List.getElem_mem inside, congrArg Node.start core, congrArg Node.stop core,
    congrArg Node.instructions core⟩

theorem map_stop (gapless : code.Gapless) : context.blocks.map (fun block => (context.graph.node block).stop) =
    (cutPoints code).tail ++ [code.length] := by
  have stops := map_stop_sliceAt (cutPoints code) code.instructions
  rw [gapless.getLast?_cutPoints] at stops
  refine Eq.trans (blocked.map_eq ?_) stops
  exact fun _ _ _ core => congrArg Node.stop core

/-- The edges of a block: to the next one if control falls into it, and to where its branch goes. -/
theorem successors_eq (gapless : code.Gapless) {index : Nat} (inside : index < context.blocks.length) :
    (context.graph.node context.blocks[index]).successors = context.fallsInto index context.blocks[index] ++
      ((context.graph.node context.blocks[index]).target?.bind
        (context.graph.blockAt? context.blocks)).toList := by
  obtain ⟨slice, isSlice, _, _, instructions⟩ := blocked.node_eq (List.getElem_mem inside)
  have falls : fallsThrough (context.graph.node context.blocks[index]) = true ↔ _ :=
    fallsThrough_iff fun inst among => gapless.aims inst
      ((isSlice_cutPoints gapless.ordered.rising isSlice).sublist.subset (instructions ▸ among))
  have here : context.blocks[index] = index := by simp only [blocked.blocks_eq, List.getElem_range]
  have bound : index < code.slices.length := by
    rwa [blocked.blocks_eq, List.length_range] at inside
  have edges := blocked.successors index bound
  rw [← blocked.blocks_eq, ← here, exits] at edges
  rw [edges, Context.fallsInto, here]
  rw [here] at falls
  simp only [falls, ite_not]

theorem flowsAs (gapless : code.Gapless) : context.FlowsAs code := by
  have starts : context.blocks.map (fun block => (context.graph.node block).start) = cutPoints code :=
    blocked.map_start.trans (map_start_sliceAt _ _)
  have stops := blocked.map_stop gapless
  have rising := gapless.ordered.rising
  constructor
  case increasing => exact List.pairwise_map.mp (starts ▸ sorted_cutPoints code)
  case first =>
    have isFirst := head?_cutPoints code
    rw [← starts, List.head?_map] at isFirst
    exact Option.map_eq_some_iff.mp isFirst
  case joined =>
    -- A slice stops at the cut where the next one starts.
    intro index inside
    have many : (cutPoints code).length = context.blocks.length := by rw [← starts, List.length_map]
    have stop := congrArg (·[index]?) stops
    have start := congrArg (·[index + 1]?) starts
    rw [List.getElem?_append_left (by rw [List.length_tail]; omega), List.getElem?_tail, ← start] at stop
    simpa [inside, Nat.lt_of_succ_lt inside] using stop
  case last =>
    -- The last cut is where the entry ends, and no instruction starts there.
    have isLast := gapless.getLast?_cutPoints
    rw [← starts, List.getLast?_map] at isLast
    obtain ⟨block, isBlock, start⟩ := Option.map_eq_some_iff.mp isLast
    have stop := congrArg List.getLast? stops
    rw [List.getLast?_map, List.getLast?_concat, isBlock] at stop
    have stop : (context.graph.node block).stop = code.length := Option.some.inj stop
    refine ⟨block, isBlock, by rw [Node.range, start, stop], ?_⟩
    obtain ⟨slice, isSlice, isStart, isStop, instructions⟩ := blocked.node_eq (List.mem_of_getLast? isBlock)
    have known := isSlice_cutPoints rising isSlice
    rw [instructions]
    refine List.eq_nil_iff_forall_not_mem.mpr fun inst among => ?_
    have after := known.start inst among
    have before := known.stop inst among
    omega
  case whole =>
    have instructions : context.blocks.map (fun block => (context.graph.node block).instructions) =
        (sliceAt (cutPoints code) code.instructions).map (·.2) :=
      blocked.map_eq fun _ _ _ core => congrArg Node.instructions core
    rw [List.flatMap_def, instructions, ← List.flatMap_def]
    refine flatMap_sliceAt fun inst member => ⟨code.length, gapless.getLast?_cutPoints, ?_⟩
    exact Nat.lt_of_lt_of_le inst.address_lt_nextAddress (gapless.fills.inOrder.2.2 inst member).2
  case within =>
    -- A block stops where an instruction may start, so none of its own goes on beyond.
    intro block member inst among
    have isStop : (context.graph.node block).stop ∈ (cutPoints code).tail ++ [code.length] := by
      rw [← stops]
      exact List.mem_map_of_mem member
    have ends : code.Starts (context.graph.node block).stop := by
      rcases List.mem_append.mp isStop with isCut | isEnd
      · exact gapless.starts_of_mem_cutPoints (List.mem_of_mem_tail isCut)
      · exact .inl (List.mem_singleton.mp isEnd)
    obtain ⟨slice, isSlice, start, stop, instructions⟩ := blocked.node_eq member
    have known := isSlice_cutPoints rising isSlice
    rw [instructions] at among
    refine ⟨start ▸ known.start inst among, gapless.nextAddress_le (known.sublist.subset among) ends ?_⟩
    exact stop ▸ known.stop inst among
  case straight =>
    intro block member
    obtain ⟨slice, isSlice, _, _, instructions⟩ := blocked.node_eq member
    rw [instructions]
    exact straight_dropLast_slice gapless.ordered isSlice
  case falls =>
    intro index inside none
    rw [blocked.successors_eq gapless inside, none]
    simp
  case branches =>
    intro index inside target goes
    have member : context.blocks[index] ∈ List.range code.slices.length :=
      blocked.blocks_eq ▸ List.getElem_mem inside
    obtain ⟨other, found⟩ := blocked.lands _ member target goes
    rw [← blocked.blocks_eq] at found
    refine ⟨other, List.mem_of_find?_eq_some found, by simpa using List.find?_some found, ?_⟩
    rw [blocked.successors_eq gapless inside, goes, Option.bind_some, found]
    rfl

end Context.Blocked

end Recovery

/-- The blocks of an assembled entry are its control flow: they hold its instructions between them, and
lead exactly to where these let control go. -/
theorem flowsAs_of_assemble (features : Features) (claims : Claims) (log : Array Event) {name listing : String}
    {code : Code} (assembled : Assembly.assemble name listing = .ok code) :
    ∃ next, (buildBlocks ⟨code, features⟩).run { claims, log } = .ok true next ∧ next.context.FlowsAs code := by
  have gapless := gapless_of_assemble assembled
  have builds : Succeeds (buildBlocks ⟨code, features⟩) { claims, log } _ :=
    reaches_buildBlocks gapless.ordered.rising rfl fun _ => gapless.cuts
  obtain ⟨_, next, done, rfl, _, blocked⟩ := builds.ok
  exact ⟨next, done, blocked.flowsAs gapless⟩

def leftLoopListing : String := ":[top]\npush.v self.x\nbt [end]\npushi.e 1\nb [top]\n> inner\nexit.i\n:[end]"

theorem flowsAs_of_assemble_leftLoopListing :
    ∃ code next, Assembly.assemble "entry" leftLoopListing = .ok code ∧
      (buildBlocks ⟨code, ⟨31⟩⟩).run {} = .ok true next ∧ next.context.FlowsAs code ∧
      next.blocks.map (fun block => (next.graph.node block).successors) =
        [[1, 3], [0], [], []] := by
  have evaluated : (match Assembly.assemble "entry" leftLoopListing with
      | .error _ => false
      | .ok code => match (buildBlocks ⟨code, ⟨31⟩⟩).run {} with
        | .error _ _ => false
        | .ok _ next => decide (next.blocks.map
          (fun block => (next.graph.node block).successors) = [[1, 3], [0], [], []])) = true := by
    decide +kernel
  split at evaluated
  · exact absurd evaluated Bool.false_ne_true
  · next code assembled =>
    obtain ⟨next, done, flows⟩ := flowsAs_of_assemble ⟨31⟩ {} #[] assembled
    rw [done] at evaluated
    exact ⟨code, next, assembled, done, flows, of_decide_eq_true evaluated⟩

end Structuring
