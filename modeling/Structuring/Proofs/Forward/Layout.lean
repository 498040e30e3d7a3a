import Structuring.Proofs.LoopNest.Stage
import Structuring.Proofs.OneBody

/-! Code that branches ahead only.

Blocks are planned before they are cut: each is a straight run, and possibly a branch to a label. If
the labels are the places that branches go to, and blocks start there, then cutting the code gives
back the blocks that were planned.
-/

namespace Structuring.Forward

open Bytecode Recovery FlowGraph LoopNest

variable {opcode : Opcode} {inst : Instruction} {target index : Nat} {graph : FlowGraph}

structure PlannedBlock where
  start : Nat
  body : List Instruction
  jump : Option (Opcode × Nat)

namespace PlannedBlock

variable {block : PlannedBlock}

def text (block : PlannedBlock) : List Instruction :=
  block.body ++ (block.jump.map fun (opcode, target) => branch opcode target).toList

def instructions (block : PlannedBlock) : List Instruction := placeFrom block.start block.text

def stop (block : PlannedBlock) : Nat := block.start + extent block.text

def slice (block : PlannedBlock) : AddressRange × List Instruction :=
  (⟨block.start, block.stop⟩, block.instructions)

def plan (block : PlannedBlock) : BlockPlan := ⟨block.start, block.stop, none, block.instructions, none⟩

def leads (block : PlannedBlock) : List Nat :=
  match block.jump with
  | some (opcode, target) => if opcode = .b then [target] else [block.stop, target]
  | none => if block.body.getLast?.any (·.isReturn) then [] else [block.stop]

theorem instructions_plan (block : PlannedBlock) : block.plan.instructions = block.instructions := by
  simp [BlockPlan.instructions_eq, plan]

theorem slice_plan (block : PlannedBlock) : block.plan.slice = block.slice := by
  rw [BlockPlan.slice, instructions_plan]
  rfl

theorem getLast?_instructions
    (jumps : block.jump = some (opcode, target)) : block.instructions.getLast? =
      some { branch opcode target with address := block.start + extent block.body } := by
  simp [instructions, text, jumps, placeFrom]

theorem instructions_eq_body (plain : block.jump = none) :
    block.instructions = placeFrom block.start block.body := by
  simp [instructions, text, plain]

theorem instructions_eq_concat
    (jumps : block.jump = some (opcode, target)) : block.instructions =
      placeFrom block.start block.body ++
        [{ branch opcode target with address := block.start + extent block.body }] := by
  simp [instructions, text, jumps, placeFrom]

theorem address_of_single (single : block.instructions = [inst]) : inst.address = block.start := by
  unfold instructions at single
  cases text : block.text with
  | nil =>
    rw [text] at single
    exact absurd single (by simp [placeFrom])
  | cons first rest =>
    rw [text, placeFrom] at single
    rw [← (List.cons.inj single).1]

theorem stop_of_jump (jumps : block.jump = some (opcode, target)) :
    block.stop = block.start + extent block.body + 4 := by
  simp [stop, text, jumps, Nat.add_assoc]

end PlannedBlock

structure Segment (labels : List Nat) (finish start : Nat) (blocks : List PlannedBlock) (stop : Nat) : Prop where
  chained : Chained start (blocks.map (·.plan)) stop
  steps : ∀ block ∈ blocks, ∀ inst ∈ placeFrom block.start block.body, IsStep finish inst
  targets : ∀ block ∈ blocks, ∀ opcode target, block.jump = some (opcode, target) →
    opcode ∈ [Opcode.b, .bf, .bt] ∧ block.start < target ∧ target ∈ labels
  ends : ∀ block ∈ blocks, block.jump = none → block.stop ∈ labels ∨ block.stop = finish

namespace Segment

variable {labels : List Nat} {finish start middle stop : Nat} {first second : List PlannedBlock}

theorem nil (labels : List Nat) (finish start : Nat) : Segment labels finish start [] start where
  chained := rfl
  steps := List.forall_mem_nil _
  targets := List.forall_mem_nil _
  ends := List.forall_mem_nil _

theorem append (early : Segment labels finish start first middle)
    (late : Segment labels finish middle second stop) : Segment labels finish start (first ++ second) stop where
  chained := by
    rw [List.map_append]
    exact chained_append early.chained late.chained
  steps block member := (List.mem_append.mp member).elim (early.steps block) (late.steps block)
  targets block member := (List.mem_append.mp member).elim (early.targets block) (late.targets block)
  ends block member := (List.mem_append.mp member).elim (early.ends block) (late.ends block)

theorem single {block : PlannedBlock} (nonempty : block.text ≠ [])
    (steps : ∀ inst ∈ placeFrom block.start block.body, IsStep finish inst)
    (targets : ∀ opcode target, block.jump = some (opcode, target) →
      opcode ∈ [Opcode.b, .bf, .bt] ∧ block.start < target ∧ target ∈ labels)
    (ends : block.jump = none → block.stop ∈ labels ∨ block.stop = finish) :
    Segment labels finish block.start [block] block.stop where
  chained := ⟨rfl, Nat.lt_add_of_pos_right (extent_pos nonempty), rfl⟩
  steps other member := by rwa [List.mem_singleton.mp member]
  targets other member := by rwa [List.mem_singleton.mp member]
  ends other member := by rwa [List.mem_singleton.mp member]

end Segment

structure Planned (labels : List Nat) (blocks : List PlannedBlock) (finish : Nat) : Prop where
  segment : Segment labels finish 0 blocks finish
  reached : ∀ label ∈ labels, ∃ block ∈ blocks, ∃ opcode, block.jump = some (opcode, label)
  placed : ∀ label ∈ labels, label ∈ blocks.map (·.start) ++ [finish]

def slicesOf (blocks : List PlannedBlock) (finish : Nat) : List (AddressRange × List Instruction) :=
  blocks.map (·.slice) ++ [(⟨finish, finish⟩, [])]

theorem branchTarget?_branch (known : opcode ∈ [Opcode.b, .bf, .bt]) (target address : Nat) :
    ({ branch opcode target with address } : Instruction).branchTarget? = some target := by
  simp only [List.mem_cons, List.not_mem_nil, or_false] at known
  rcases known with rfl | rfl | rfl <;> rfl

namespace Planned

variable {labels : List Nat} {blocks : List PlannedBlock} {finish : Nat} {block : PlannedBlock}

theorem starts_plan (blocks : List PlannedBlock) :
    (blocks.map (·.plan)).map (·.start) = blocks.map (·.start) := by
  rw [List.map_map]
  rfl

theorem stop_mem (planned : Planned labels blocks finish) (member : block ∈ blocks) :
    block.stop ∈ blocks.map (·.start) ++ [finish] := by
  rw [← starts_plan]
  exact stop_mem_of_chained planned.segment.chained (List.mem_map_of_mem member)

theorem bounds (planned : Planned labels blocks finish) (member : block ∈ blocks) :
    block.start < block.stop ∧ block.stop ≤ finish :=
  (bounds_of_chained planned.segment.chained (List.mem_map_of_mem member)).2

theorem mem_instructions :
    inst ∈ block.instructions ↔ inst ∈ placeFrom block.start block.body ∨
      ∃ opcode target, block.jump = some (opcode, target) ∧
        inst = { branch opcode target with address := block.start + extent block.body } := by
  cases jumps : block.jump with
  | none => simp [PlannedBlock.instructions_eq_body jumps]
  | some jump =>
    obtain ⟨opcode, target⟩ := jump
    simp [PlannedBlock.instructions_eq_concat jumps]

theorem start_mem_of_cut (planned : Planned labels blocks finish)
    (member : block ∈ blocks) (among : inst ∈ block.instructions) {cut : Nat}
    (isCut : cut ∈ instructionCuts inst) : cut ∈ blocks.map (·.start) ++ [finish] := by
  rcases mem_instructions.mp among with isStep | ⟨opcode, target, jumps, rfl⟩
  · have step := planned.segment.steps block member inst isStep
    have noTarget := Option.isNone_iff_eq_none.mp (Option.isSome_eq_false_iff.mp step.straight)
    rw [instructionCuts, noTarget] at isCut
    dsimp only at isCut
    split at isCut
    · next returns => simp [List.mem_singleton.mp isCut, step.returns returns]
    · cases isCut
  · obtain ⟨known, _, isLabel⟩ := planned.segment.targets block member opcode target jumps
    rw [instructionCuts, branchTarget?_branch known] at isCut
    simp only [List.mem_cons, List.not_mem_nil, or_false] at isCut
    rcases isCut with rfl | rfl
    · exact planned.placed _ isLabel
    · have stop := planned.stop_mem member
      rwa [PlannedBlock.stop_of_jump jumps] at stop

/-- A block starts where the code starts, where a branch goes to, or behind a branch. -/
theorem cut_of_start (planned : Planned labels blocks finish) (member : block ∈ blocks) :
    block.start = 0 ∨ block.start = finish ∨
      ∃ inst ∈ blocks.flatMap (·.instructions), block.start ∈ instructionCuts inst := by
  have inCode {other : PlannedBlock} (among : other ∈ blocks) {opcode : Opcode} {target : Nat}
      (jumps : other.jump = some (opcode, target)) : ∃ inst ∈ blocks.flatMap (·.instructions),
        target ∈ instructionCuts inst ∧ other.stop ∈ instructionCuts inst := by
    obtain ⟨known, _, _⟩ := planned.segment.targets other among opcode target jumps
    refine ⟨_, List.mem_flatMap.mpr ⟨other, among, mem_instructions.mpr (.inr ⟨opcode, target, jumps, rfl⟩)⟩, ?_⟩
    rw [instructionCuts, branchTarget?_branch known, PlannedBlock.stop_of_jump jumps]
    exact ⟨.head _, .tail _ (.head _)⟩
  rcases start_of_chained planned.segment.chained (List.mem_map_of_mem member) with first | ⟨plan, isPlan, same⟩
  · exact .inl first
  · obtain ⟨earlier, among, rfl⟩ := List.mem_map.mp isPlan
    have same : earlier.stop = block.start := same
    rw [← same]
    cases jumps : earlier.jump with
    | some jump =>
      obtain ⟨inst, inCode, _, behind⟩ := inCode among (show earlier.jump = some (jump.1, jump.2) from jumps)
      exact .inr (.inr ⟨inst, inCode, behind⟩)
    | none =>
      rcases planned.segment.ends earlier among jumps with isLabel | ends
      · obtain ⟨other, isOther, opcode, goes⟩ := planned.reached _ isLabel
        obtain ⟨inst, inCode, ahead, _⟩ := inCode isOther goes
        exact .inr (.inr ⟨inst, inCode, ahead⟩)
      · exact .inr (.inl ends)

variable {code : Code}

section

variable (planned : Planned labels blocks finish)
  (instructions : code.instructions = blocks.flatMap (·.instructions)) (length : code.length = finish)
  (childless : code.children = [])

include planned instructions length childless

theorem cutInto : CutInto code (blocks.map (·.plan)) finish := by
  have same : (blocks.map (·.plan)).flatMap (·.instructions) = blocks.flatMap (·.instructions) := by
    rw [List.flatMap_map]
    exact List.flatMap_congr fun block _ => block.instructions_plan
  refine ⟨planned.segment.chained, fun plan isPlan => ?_, instructions.trans same.symm, length, childless,
    fun plan isPlan inst among cut isCut => ?_, fun plan isPlan => ?_⟩ <;>
    obtain ⟨block, isBlock, rfl⟩ := List.mem_map.mp isPlan
  · rw [block.instructions_plan]
    refine ⟨placeFrom_placeFrom _ _ _, ?_⟩
    show block.stop = block.start + extent block.instructions
    rw [PlannedBlock.instructions, extent_placeFrom]
    rfl
  · rw [block.instructions_plan] at among
    rw [starts_plan]
    exact planned.start_mem_of_cut isBlock among isCut
  · rw [same]
    exact planned.cut_of_start isBlock

theorem sliceAt_eq : sliceAt (cutPoints code) code.instructions = slicesOf blocks finish := by
  rw [(planned.cutInto instructions length childless).sliceAt_eq, List.map_map, slicesOf]
  exact congrArg (· ++ _) (List.map_congr_left fun block _ => block.slice_plan)

end

end Planned

/-! Blocks that are laid out -/

structure Stands (graph : FlowGraph) (id : NodeId) (block : PlannedBlock) : Prop where
  start : (graph.node id).start = block.start
  stop : (graph.node id).stop = block.stop
  kind : (graph.node id).kind = .block ⟨id, block.instructions⟩
  leads : startsAfter graph id = block.leads

theorem Stands.instructions {id : NodeId} {block : PlannedBlock}
    (stands : Stands graph id block) : (graph.node id).instructions = block.instructions := by
  rw [Node.instructions, stands.kind]

structure PlannedBlock.IsPlain (block : PlannedBlock) : Prop where
  jump : block.jump = none
  straight : ∀ inst ∈ block.body, IsStraight inst

structure RunsOn (graph : FlowGraph) (id : NodeId) : Prop where
  leads : startsAfter graph id = [(graph.node id).stop]
  goesOn : (graph.node id).jumpTarget? = none

theorem Stands.runsOn {id : NodeId} {block : PlannedBlock} (stands : Stands graph id block)
    (plain : block.IsPlain) : RunsOn graph id := by
  constructor
  · have falls : block.body.getLast?.any (·.isReturn) = false := by
      rw [Option.any_eq_false]
      exact fun inst isLast => by simpa using (plain.straight inst (List.mem_of_getLast? isLast)).2.2
    rw [stands.leads, stands.stop, PlannedBlock.leads, plain.jump]
    simp [falls]
  · refine Option.bind_eq_none_iff.mpr fun inst isLast => ?_
    have member : inst ∈ placeFrom block.start block.body := by
      rw [← PlannedBlock.instructions_eq_body plain.jump, ← stands.instructions]
      exact List.mem_of_getLast? isLast
    obtain ⟨_, _, old, among, same⟩ := mem_placeFrom member
    have noTarget : inst.branchTarget? = none := by
      rw [same]
      exact Option.isNone_iff_eq_none.mp (Option.isSome_eq_false_iff.mp (plain.straight old among).1)
    rw [Instruction.targetOf?, noTarget, ite_self]

theorem length_slicesOf (blocks : List PlannedBlock) (finish : Nat) :
    (slicesOf blocks finish).length = blocks.length + 1 := by simp [slicesOf]

theorem getLast?_placeFrom (address : Nat) (instructions : List Instruction) :
    ∃ place, (placeFrom address instructions).getLast? =
      instructions.getLast?.map fun inst => { inst with address := place } := by
  rcases List.eq_nil_or_concat instructions with rfl | ⟨front, last, rfl⟩
  · exact ⟨0, rfl⟩
  · exact ⟨address + extent front, by simp [placeFrom]⟩

/-- Which addresses a block leads to can be told from its last instruction. -/
theorem PlannedBlock.leads_eq {block : PlannedBlock} {finish : Nat}
    (steps : ∀ inst ∈ placeFrom block.start block.body, IsStep finish inst)
    (targets : ∀ opcode target, block.jump = some (opcode, target) → opcode ∈ [Opcode.b, .bf, .bt])
    {node : Node} (text : node.instructions = block.instructions) :
    block.leads = (if fallsThrough node then [block.stop] else []) ++ node.target?.toList := by
  cases jumps : block.jump with
  | some jump =>
    obtain ⟨opcode, target⟩ := jump
    have known := targets opcode target jumps
    have last : node.last? = some { branch opcode target with address := block.start + extent block.body } := by
      rw [Node.last?, text, getLast?_instructions jumps]
    have goes : node.target? = some target := by
      rw [Node.target?, last]
      exact branchTarget?_branch known _ _
    have falls : fallsThrough node = (opcode != .b) := by
      rw [fallsThrough, last]
      simp only [List.mem_cons, List.not_mem_nil, or_false] at known
      rcases known with rfl | rfl | rfl <;> rfl
    by_cases isJump : opcode = .b <;> simp [leads, jumps, goes, falls, isJump]
  | none =>
    obtain ⟨place, isLast⟩ := getLast?_placeFrom block.start block.body
    rw [← instructions_eq_body jumps, ← text] at isLast
    have isLast : node.last? = _ := isLast
    have straight (inst : Instruction) (last : node.last? = some inst) : inst.branchTarget? = none := by
      have member := List.mem_of_getLast? last
      rw [text, instructions_eq_body jumps] at member
      exact Option.isNone_iff_eq_none.mp (Option.isSome_eq_false_iff.mp (steps inst member).straight)
    have goes : node.target? = none := Option.bind_eq_none_iff.mpr fun inst last => straight inst last
    have falls : fallsThrough node = !(block.body.getLast?.any (·.isReturn)) := by
      rw [fallsThrough]
      cases ends : block.body.getLast? with
      | none => simp [isLast, ends]
      | some inst =>
        rw [isLast, ends]
        have noJump := straight { inst with address := place } (by rw [isLast, ends]; rfl)
        simp only [Option.map_some, Instruction.isJump, Instruction.isBranch, noJump, Option.isSome_none,
          Bool.and_false, Bool.false_or]
        rfl
    rw [leads, jumps, falls, goes]
    by_cases returns : block.body.getLast?.any (·.isReturn) = true <;> simp [returns]

section

variable {labels : List Nat} {blocks : List PlannedBlock} {finish : Nat} {context : Context} {code : Code}

def lastBlock (finish : Nat) : PlannedBlock := ⟨finish, [], none⟩

theorem slicesOf_eq (blocks : List PlannedBlock) (finish : Nat) :
    slicesOf blocks finish = (blocks ++ [lastBlock finish]).map (·.slice) := by
  simp [slicesOf, lastBlock, PlannedBlock.slice, PlannedBlock.stop, PlannedBlock.text,
    PlannedBlock.instructions, placeFrom]

theorem core_of_entered (entered : context.Entered (slicesOf blocks finish) code) {block : PlannedBlock}
    (isBlock : (blocks ++ [lastBlock finish])[index]? = some block) :
    (context.graph.node index).start = block.start ∧ (context.graph.node index).stop = block.stop ∧
      (context.graph.node index).parent = some (blocks.length + 1) ∧
      (context.graph.node index).kind = .block ⟨index, block.instructions⟩ := by
  obtain ⟨inside, rfl⟩ := List.getElem?_eq_some_iff.mp isBlock
  have bound : index < (slicesOf blocks finish).length := by
    rw [length_slicesOf]
    simpa using inside
  have core := entered.core index bound
  simp only [slicesOf_eq, List.getElem_map, List.length_map] at core
  refine ⟨congrArg Node.start core, congrArg Node.stop core, (congrArg Node.parent core).trans ?_,
    congrArg Node.kind core⟩
  simp

variable (planned : Planned labels blocks finish) (entered : context.Entered (slicesOf blocks finish) code)
include planned entered

theorem stands_of_entered (inside : index < blocks.length) : Stands context.graph index blocks[index] := by
  have isBlock : (blocks ++ [lastBlock finish])[index]? = some blocks[index] := by
    rw [List.getElem?_append_left inside, List.getElem?_eq_getElem inside]
  obtain ⟨start, stop, _, isKind⟩ := core_of_entered entered isBlock
  have member : blocks[index] ∈ blocks := List.getElem_mem inside
  have text : (context.graph.node index).instructions = blocks[index].instructions := by
    rw [Node.instructions, isKind]
  -- The next block starts where this one stops.
  have next : (context.graph.node (index + 1)).start = blocks[index].stop := by
    obtain ⟨_, follows⟩ := chained_adjacent planned.segment.chained
      (rfl : (lastBlock finish).plan.start = finish) index (by rw [List.length_map]; exact inside)
    rw [← List.map_singleton, ← List.map_append, List.getElem?_map, List.getElem_map] at follows
    obtain ⟨plan, isPlan, same⟩ := Option.map_eq_some_iff.mp follows
    obtain ⟨block, isNext, rfl⟩ := Option.map_eq_some_iff.mp isPlan
    rw [(core_of_entered entered isNext).1]
    exact same
  refine ⟨start, stop, isKind, ?_⟩
  rw [startsAfter, entered.starts (by rw [length_slicesOf]; omega),
    PlannedBlock.leads_eq (planned.segment.steps _ member)
      (fun opcode target jumps => (planned.segment.targets _ member opcode target jumps).1) text]
  have isNext : (List.range (slicesOf blocks finish).length)[index + 1]? = some (index + 1) := by
    rw [length_slicesOf, List.getElem?_range (by omega)]
  rw [isNext, Option.map_some, next]
  rfl

end

end Structuring.Forward
