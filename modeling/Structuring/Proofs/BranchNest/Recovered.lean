import Structuring.Proofs.BranchNest.Collapse
import Structuring.Proofs.Forward.Run

/-! Conditionals recovered from programs.

The blocks of statements are a part of the row, however the statements are nested. When its conditionals
are built no branch is left, so the passes behind find nothing to do.
-/

namespace Structuring.BranchNest

open Bytecode Recovery FlowGraph LoopNest Forward

variable {source : Source} {placed : List (NodeId × PlannedBlock)} {entry : NodeId × PlannedBlock}

/-! Statements as parts of the row -/

theorem Opened.collapses_remainder {opened : Opened} (straight : opened.Straight)
    (isPlaced : placed.map (·.2) = opened.remainder) :
    Collapses source (.stay opened.start opened.place placed) ∧ ∀ entry ∈ placed, entry.2.IsPlain := by
  have segment : Segment [opened.place] 0 opened.start opened.remainder opened.place :=
    opened.segment_remainder straight (.head _)
  have plain (block : PlannedBlock) (member : block ∈ opened.remainder) : block.IsPlain := by
    unfold Opened.remainder at member
    split at member
    · cases member
    · rw [List.mem_singleton.mp member]
      exact ⟨rfl, straight⟩
  have among (entry : NodeId × PlannedBlock) (member : entry ∈ placed) : entry.2 ∈ opened.remainder :=
    isPlaced ▸ List.mem_map_of_mem member
  refine ⟨.stay ?_ (fun entry member address leads => ?_) fun entry member target jumps => ?_,
    fun entry member => plain _ (among entry member)⟩
  · have chained := segment.chained
    rwa [← isPlaced, List.map_map] at chained
  · have isPlain := plain _ (among entry member)
    have grows := (bounds_of_chained segment.chained (List.mem_map_of_mem (among entry member))).2.1
    rw [PlannedBlock.leads, isPlain.jump] at leads
    dsimp only at leads
    split at leads
    · cases leads
    · rw [List.mem_singleton.mp leads]
      exact grows
  · rw [(plain _ (among entry member)).jump] at jumps
    cases jumps

theorem Opened.collapses_skip {opened : Opened} (id : NodeId) {target : Nat} (ahead : opened.start < target) :
    Collapses source (.stay opened.start (opened.place + 4) [(id, opened.close .b target)]) := by
  refine .stay ⟨rfl, ?_, opened.stop_close .b target⟩ (fun entry member address leads => ?_) fun entry member _ jumps => ?_
  · show opened.start < (opened.close .b target).stop
    have := opened.start_le_place
    rw [opened.stop_close]
    omega
  · rw [List.mem_singleton.mp member] at leads ⊢
    rw [List.mem_singleton.mp leads]
    exact ahead
  · rw [List.mem_singleton.mp member] at jumps
    exact absurd jumps (by simp [Opened.close])

namespace Statements

def part (statements : Statements) (opened : Opened) (placed : List (NodeId × PlannedBlock)) : Part where
  start := opened.start
  stop := (statements.tail opened).start
  blocks := placed
  keep := []
  doors := []
  nest := statements.nest opened.place none

theorem collapses_append {first rest : Statements} {opened : Opened} (straight : opened.Straight)
    {later : List (NodeId × PlannedBlock)} (isPlaced : placed.map (·.2) = first.blocks opened)
    (one : Collapses source (first.part opened placed)) (two : Collapses source (rest.part (first.tail opened) later)) :
    Collapses source { (first.part opened placed).append (rest.part (first.tail opened) later) with doors := [] } := by
  refine .close (.append (fun entry member address leads => .inl ?_) one two rfl) fun _ member =>
    absurd member List.not_mem_nil
  exact (first.leads_bounds straight (isPlaced ▸ List.mem_map_of_mem member) leads).2

section

variable {condition : Run} {body other : Statements} {opened : Opened} {inside otherwise : Nat} {head skip : NodeId}
  {inner second remains : List (NodeId × PlannedBlock)}

def armOf (body : Statements) (inside : Nat) (inner remains : List (NodeId × PlannedBlock)) : Part :=
  (body.part ⟨inside, []⟩ inner).append (.stay (body.tail ⟨inside, []⟩).start (inside + body.size) remains)

theorem part_ifThen (isInside : inside = opened.place + extent condition.steps + 4) :
    (ifThen condition body done).part opened
        ((head, (opened.extend condition.steps).close .bf (inside + body.size)) :: (inner ++ remains)) =
      (armOf body inside inner remains).wrap (head, (opened.extend condition.steps).close .bf (inside + body.size))
        ⟨opened.place + extent condition.steps, false, inside + body.size⟩ := by
  subst isInside
  simp [part, armOf, Part.wrap, Part.append, Part.stay, tail, nest, body.nest_around _ (some _), Opened.close,
    Opened.extend]

theorem collapses_armOf (isInner : inner.map (·.2) = body.blocks ⟨inside, []⟩)
    (isRemains : remains.map (·.2) = (body.tail ⟨inside, []⟩).remainder)
    (arm : Collapses source (body.part ⟨inside, []⟩ inner)) :
    Collapses source (armOf body inside inner remains) ∧ ∀ entry ∈ remains, entry.2.IsPlain := by
  have fresh := Opened.straight_fresh inside
  have place : (body.tail ⟨inside, []⟩).place = inside + body.size := body.place_tail _
  obtain ⟨stays, plain⟩ : Collapses source _ ∧ _ := Opened.collapses_remainder (body.straight_tail fresh) isRemains
  rw [place] at stays
  refine ⟨.append (fun entry member address leads => .inl ?_) arm stays rfl, plain⟩
  exact (body.leads_bounds fresh (isInner ▸ List.mem_map_of_mem member) leads).2

theorem collapses_ifThen (head : NodeId) (isInside : inside = opened.place + extent condition.steps + 4)
    (isInner : inner.map (·.2) = body.blocks ⟨inside, []⟩)
    (isRemains : remains.map (·.2) = (body.tail ⟨inside, []⟩).remainder)
    (arm : Collapses source (body.part ⟨inside, []⟩ inner)) :
    Collapses source ((ifThen condition body done).part opened
      ((head, (opened.extend condition.steps).close .bf (inside + body.size)) :: (inner ++ remains))) := by
  have begins := opened.start_le_place
  obtain ⟨arms, plain⟩ := collapses_armOf isInner isRemains arm
  have shape : IsConditional (armOf body inside inner remains)
      (head, (opened.extend condition.steps).close .bf (inside + body.size)) (inside + body.size) none := by
    refine ⟨rfl, ?_, .inl rfl, fun entry member => .inl (plain entry member), fun _ => rfl,
      fun _ isSkip => absurd isSkip (by simp)⟩
    show ((opened.extend condition.steps).close .bf (inside + body.size)).stop = inside
    rw [Opened.stop_close, Opened.place_extend, isInside]
  rw [part_ifThen isInside]
  exact arms.wrap shape (show opened.start < inside + body.size by omega) (opened.place_extend _) rfl rfl

def armsOf (body other : Statements) (inside otherwise : Nat) (skip : NodeId)
    (inner second remains : List (NodeId × PlannedBlock)) : Part :=
  (body.part ⟨inside, []⟩ inner).append
    ((Part.stay (body.tail ⟨inside, []⟩).start otherwise
      [(skip, (body.tail ⟨inside, []⟩).close .b (otherwise + other.size))]).append (armOf other otherwise second remains))

theorem part_ifElse (isInside : inside = opened.place + extent condition.steps + 4)
    (isOtherwise : otherwise = inside + body.size + 4) :
    (ifElse condition body other done).part opened
        ((head, (opened.extend condition.steps).close .bf otherwise) ::
          (inner ++ ((skip, (body.tail ⟨inside, []⟩).close .b (otherwise + other.size)) :: (second ++ remains)))) =
      (armsOf body other inside otherwise skip inner second remains).wrap
        (head, (opened.extend condition.steps).close .bf otherwise)
        ⟨opened.place + extent condition.steps, true, otherwise + other.size⟩ := by
  subst isInside isOtherwise
  simp [part, armsOf, armOf, Part.wrap, Part.append, Part.stay, tail, nest, body.nest_around _ (some _),
    other.nest_around _ (some _), Opened.close, Opened.extend]

theorem collapses_armsOf (isOtherwise : otherwise = inside + body.size + 4)
    (isInner : inner.map (·.2) = body.blocks ⟨inside, []⟩)
    (arm : Collapses source (body.part ⟨inside, []⟩ inner))
    (otherArm : Collapses source (armOf other otherwise second remains)) :
    Collapses source (armsOf body other inside otherwise skip inner second remains) := by
  have place : (body.tail ⟨inside, []⟩).place = inside + body.size := body.place_tail _
  have begins := (body.tail ⟨inside, []⟩).start_le_place
  have skips : Collapses source _ := Opened.collapses_skip skip
    (show (body.tail ⟨inside, []⟩).start < otherwise + other.size by omega)
  rw [place, ← isOtherwise] at skips
  refine .append (fun entry member address leads => .inl ?_) arm (.append (fun entry member address leads => ?_)
    skips otherArm rfl) rfl
  · exact (body.leads_bounds (Opened.straight_fresh inside) (isInner ▸ List.mem_map_of_mem member) leads).2
  · rw [List.mem_singleton.mp member] at leads
    rw [List.mem_singleton.mp leads]
    exact .inr (.inl (Nat.le_refl _))

theorem collapses_ifElse (head skip : NodeId) (isInside : inside = opened.place + extent condition.steps + 4)
    (isOtherwise : otherwise = inside + body.size + 4)
    (isInner : inner.map (·.2) = body.blocks ⟨inside, []⟩) (isSecond : second.map (·.2) = other.blocks ⟨otherwise, []⟩)
    (isRemains : remains.map (·.2) = (other.tail ⟨otherwise, []⟩).remainder)
    (arm : Collapses source (body.part ⟨inside, []⟩ inner))
    (otherArm : Collapses source (other.part ⟨otherwise, []⟩ second)) :
    Collapses source ((ifElse condition body other done).part opened
      ((head, (opened.extend condition.steps).close .bf otherwise) ::
        (inner ++ ((skip, (body.tail ⟨inside, []⟩).close .b (otherwise + other.size)) :: (second ++ remains))))) := by
  have place : (body.tail ⟨inside, []⟩).place = inside + body.size := body.place_tail _
  have begins := opened.start_le_place
  obtain ⟨behind, plain⟩ := collapses_armOf isSecond isRemains otherArm
  have arms : Collapses source (armsOf body other inside otherwise skip inner second remains) :=
    collapses_armsOf isOtherwise isInner arm behind
  have shape : IsConditional (armsOf body other inside otherwise skip inner second remains)
      (head, (opened.extend condition.steps).close .bf otherwise) otherwise
      (some (skip, (body.tail ⟨inside, []⟩).close .b (otherwise + other.size))) := by
    refine ⟨rfl, ?_, .inr ?_, fun entry member => ?_, fun none => absurd none (by simp), fun entry isSkip => ?_⟩
    · show ((opened.extend condition.steps).close .bf otherwise).stop = inside
      rw [Opened.stop_close, Opened.place_extend, isInside]
    · simp [armsOf, armOf, Part.append, part]
    · rcases List.mem_cons.mp member with rfl | isLast
      · exact .inr rfl
      · exact .inl (plain entry isLast)
    · cases isSkip
      refine ⟨.head _, rfl, ?_⟩
      rw [Opened.stop_close, place, isOtherwise]
  rw [part_ifElse isInside isOtherwise]
  exact arms.wrap shape (show opened.start < otherwise by omega) (opened.place_extend _) rfl rfl

end

theorem collapses (statements : Statements) {opened : Opened} (straight : opened.Straight)
    (isPlaced : placed.map (·.2) = statements.blocks opened) :
    Collapses source (statements.part opened placed) := by
  induction statements generalizing opened placed with
  | done =>
    obtain rfl := List.map_eq_nil_iff.mp isPlaced
    exact .stay rfl (fun _ member => absurd member List.not_mem_nil) fun _ member => absurd member List.not_mem_nil
  | run steps rest ih =>
    have collapses : Collapses source (rest.part (opened.extend steps.steps) placed) :=
      ih (straight.extend steps) isPlaced
    rw [part, Opened.place_extend] at collapses
    exact collapses
  | ifThen condition body rest bodyIH restIH =>
    rw [blocks] at isPlaced
    obtain ⟨early, later, rfl, isEarly, isLater⟩ := List.map_eq_append_iff.mp isPlaced
    obtain ⟨⟨head, _⟩, arms, rfl, rfl, isArms⟩ := List.map_eq_cons_iff.mp isEarly
    obtain ⟨inner, remains, rfl, isInner, isRemains⟩ := List.map_eq_append_iff.mp isArms
    have one := collapses_ifThen head rfl isInner isRemains (bodyIH (Opened.straight_fresh _) isInner)
    have same : (ifThen condition body done).blocks opened = _ := List.append_nil _
    have whole := collapses_append straight (isEarly.trans same.symm) one (restIH (Opened.straight_fresh _) isLater)
    simpa [part, Part.append, nest, tail] using whole
  | ifElse condition body other rest bodyIH otherIH restIH =>
    rw [blocks] at isPlaced
    obtain ⟨early, later, rfl, isEarly, isLater⟩ := List.map_eq_append_iff.mp isPlaced
    obtain ⟨⟨head, _⟩, arms, rfl, rfl, isArms⟩ := List.map_eq_cons_iff.mp isEarly
    obtain ⟨first, others, rfl, isFirst, isOthers⟩ := List.map_eq_append_iff.mp isArms
    obtain ⟨inner, skips, rfl, isInner, isSkips⟩ := List.map_eq_append_iff.mp isFirst
    obtain ⟨⟨skip, _⟩, rfl, rfl⟩ := List.map_eq_singleton_iff.mp isSkips
    obtain ⟨second, remains, rfl, isSecond, isRemains⟩ := List.map_eq_append_iff.mp isOthers
    have one := collapses_ifElse head skip rfl rfl isInner isSecond isRemains (bodyIH (Opened.straight_fresh _) isInner)
      (otherIH (Opened.straight_fresh _) isSecond)
    have same : (ifElse condition body other done).blocks opened = _ := List.append_nil _
    rw [List.append_assoc, List.singleton_append] at isEarly
    have whole := collapses_append straight (isEarly.trans same.symm) one (restIH (Opened.straight_fresh _) isLater)
    simpa [part, Part.append, nest, tail] using whole

end Statements

/-! Whole runs -/

namespace Statements

def numbered (statements : Statements) : List (NodeId × PlannedBlock) :=
  (List.range (statements.blocks ⟨0, []⟩).length).zip (statements.blocks ⟨0, []⟩)

variable {statements : Statements} {context : Context} {code : Code}

theorem length_allBlocks (statements : Statements) :
    statements.allBlocks.length = (statements.blocks ⟨0, []⟩).length + 1 := by simp [allBlocks]

theorem map_snd_numbered (statements : Statements) :
    statements.numbered.map (·.2) = statements.blocks ⟨0, []⟩ := List.map_snd_zip (by simp)

theorem map_fst_numbered (statements : Statements) :
    statements.numbered.map (·.1) = List.range (statements.blocks ⟨0, []⟩).length := List.map_fst_zip (by simp)

theorem getElem?_of_mem_numbered (member : entry ∈ statements.numbered) :
    (statements.blocks ⟨0, []⟩)[entry.1]? = some entry.2 := by
  obtain ⟨index, bound, rfl⟩ := List.getElem_of_mem member
  have inside : index < (statements.blocks ⟨0, []⟩).length := by
    simpa [numbered] using bound
  simp [numbered, inside]

section

variable (entered : context.Entered (slicesOf statements.allBlocks statements.finish) code)
include entered

theorem stands_numbered (member : entry ∈ statements.numbered) : Stands context.graph entry.1 entry.2 := by
  obtain ⟨inside, same⟩ := List.getElem?_eq_some_iff.mp (getElem?_of_mem_numbered member)
  have bound : entry.1 < statements.allBlocks.length := by
    rw [length_allBlocks]
    exact Nat.lt_succ_of_lt inside
  have stands := stands_of_entered statements.planned entered bound
  have isBlock : statements.allBlocks[entry.1] = entry.2 := by simp [allBlocks, inside, same]
  rwa [isBlock] at stands

omit entered in
theorem ready {laid : Session}
    (entered : laid.context.Entered (slicesOf statements.allBlocks statements.finish) code)
    (tidied : laid.Tidied True) :
    Ready (statements.part ⟨0, []⟩ statements.numbered) laid (statements.allBlocks.length + 1)
      statements.allBlocks.length [] [(statements.blocks ⟨0, []⟩).length] statements.finish := by
  have row := row_of_entered statements.planned entered
  have chained := (statements.segment_alone (Opened.straight_fresh 0)).chained
  rw [← statements.map_snd_numbered, List.map_map] at chained
  have returns : Stands laid.graph (statements.blocks ⟨0, []⟩).length
      ⟨(statements.tail ⟨0, []⟩).start, (statements.tail ⟨0, []⟩).body ++ [exit], none⟩ := by
    have stands := stands_of_entered statements.planned entered
      (show (statements.blocks ⟨0, []⟩).length < _ by rw [length_allBlocks]; omega)
    simpa [allBlocks] using stands
  constructor
  case toParted =>
    refine ⟨?_, rfl, tiled_of_chained chained fun entry => stands_numbered entered, ?_⟩
    · rw [length_allBlocks, List.range_succ] at row
      simpa [Part.ids, part, map_fst_numbered, length_allBlocks] using row
    · have bounds := statements.planned.bounds (List.mem_append_right _ (.head _))
      refine ⟨returns.start, ?_, ?_⟩
      · rw [returns.stop]
        exact bounds.1
      · rw [returns.stop]
        exact statements.stop_last
  case outside =>
    intro tile member address among
    rw [List.nil_append, List.mem_singleton] at member
    rw [member, returns.leads] at among
    simp [PlannedBlock.leads, exit, Instruction.isReturn] at among
  case stands => exact fun entry => stands_numbered entered
  case tidied => exact tidied
  case rooted =>
    rw [entered.size, length_slicesOf]
    exact Nat.lt_succ_self _
  case rootless =>
    have parent := congrArg Node.parent entered.root
    rw [length_slicesOf] at parent
    rw [parent]
    simp
  case more => simp

theorem caseTarget?_eq_none (id : Nat) : caseTarget? (context.graph.node id) = none := by
  refine caseTarget?_of_target ?_
  rcases Nat.lt_or_ge id statements.allBlocks.length with inside | outside
  · have stands := stands_of_entered statements.planned entered inside
    have member : statements.allBlocks[id] ∈ statements.allBlocks := List.getElem_mem inside
    refine Option.bind_eq_none_iff.mpr fun inst isLast => ?_
    cases jumps : statements.allBlocks[id].jump with
    | none =>
      have noTarget := stands.target?_of_none (statements.planned.segment.steps _ member) jumps
      rw [Node.target?, isLast] at noTarget
      rw [Instruction.targetOf?, show inst.branchTarget? = none from noTarget, ite_self]
    | some jump =>
      obtain ⟨opcode, target⟩ := jump
      rw [stands.last?_of_jump jumps] at isLast
      cases Option.some.inj isLast
      rcases List.mem_append.mp member with isBlock | isReturn
      · rcases statements.opcode_cases isBlock jumps with rfl | rfl <;> rfl
      · rw [List.mem_singleton.mp isReturn] at jumps
        cases jumps
  · have none : (context.graph.node id).instructions = [] := by
      rcases Nat.eq_or_lt_of_le outside with rfl | beyond
      · exact (last_of_entered entered).2.2.1
      · rcases Nat.eq_or_lt_of_le beyond with rfl | absent
        · have root := congrArg Node.kind entered.root
          rw [length_slicesOf] at root
          rw [Node.instructions, root]
        · rw [node_of_size_le (by rw [entered.size, length_slicesOf]; exact absent)]
          rfl
    simp [Node.targetOf?, Node.last?, none]

theorem conditions_eq : ((List.range (statements.allBlocks.length + 1)).reverse.filter fun block =>
    (context.graph.node block).lastOpcode? == some .bf) =
      (statements.part ⟨0, []⟩ statements.numbered).heads.reverse := by
  have planned := statements.planned
  have other : (context.graph.node (statements.blocks ⟨0, []⟩).length).lastOpcode? ≠ some .bf := by
    have inside : (statements.blocks ⟨0, []⟩).length < statements.allBlocks.length := by
      rw [length_allBlocks]
      exact Nat.lt_succ_self _
    have stands := stands_of_entered planned entered inside
    have isReturn : statements.allBlocks[(statements.blocks ⟨0, []⟩).length].jump = none := by simp [allBlocks]
    rw [ne_eq, stands.lastOpcode?_eq_iff (planned.segment.steps _ (List.getElem_mem inside)) rfl, isReturn]
    simp
  have last : (context.graph.node statements.allBlocks.length).lastOpcode? = none := by
    rw [Node.lastOpcode?, Node.last?, (last_of_entered entered).2.2.1]
    rfl
  have heads : (List.range (statements.blocks ⟨0, []⟩).length).filter
      (fun block => (context.graph.node block).lastOpcode? == some .bf) =
        (statements.part ⟨0, []⟩ statements.numbered).heads := by
    rw [← map_fst_numbered, List.filter_map, Part.heads]
    refine congrArg _ (List.filter_congr fun entry member => ?_)
    have among : entry.2 ∈ statements.blocks ⟨0, []⟩ := statements.map_snd_numbered ▸ List.mem_map_of_mem member
    have same := (stands_numbered entered member).lastOpcode?_eq_iff
      ((statements.segment_alone (Opened.straight_fresh 0)).steps _ among) (show Opcode.bf.takesLabel = true from rfl)
    rw [Bool.eq_iff_iff, Function.comp_apply, beq_iff_eq, beq_iff_eq]
    exact same
  rw [List.filter_reverse, ← heads, List.range_succ, length_allBlocks, List.range_succ]
  rw [length_allBlocks] at last
  simp [List.filter_append, last, other]

end

def Built (statements : Statements) (laid next : Session) (built : List (PlacedIf × NodeId)) : Prop :=
  ∃ tiles, Collapsed (statements.part ⟨0, []⟩ statements.numbered) (statements.allBlocks.length + 1)
    statements.allBlocks.length [] [(statements.blocks ⟨0, []⟩).length] statements.finish laid next tiles built

theorem plain_of_built {laid next : Session} {built : List (PlacedIf × NodeId)}
    (entered : laid.context.Entered (slicesOf statements.allBlocks statements.finish) code)
    (tidied : laid.Tidied True) (isBuilt : statements.Built laid next built)
    (owner : next.graph.Owner (statements.allBlocks.length + 1)) (id : Nat) : (next.graph.node id).Plain := by
  obtain ⟨tiles, collapsed⟩ := isBuilt
  have ready := statements.ready entered tidied
  have planned := statements.planned
  have empty (noBlock : (next.graph.node id).kind.isBlock = false) : (next.graph.node id).Plain := by
    rw [Node.Plain, Node.instructions_of_not_isBlock noBlock]
    exact List.forall_mem_nil _
  have size : laid.graph.size = statements.allBlocks.length + 2 := by
    rw [entered.size, length_slicesOf]
  have kept (outside : id ∉ (statements.part ⟨0, []⟩ statements.numbered).ids) (bound : id < laid.graph.size)
      (apart : id ≠ statements.allBlocks.length + 1) :
      (next.graph.node id).instructions = (laid.graph.node id).instructions := by
    rw [Node.instructions, collapsed.reworks.kinds id bound apart (.inl outside)]
    rfl
  have ids : (statements.part ⟨0, []⟩ statements.numbered).ids = List.range (statements.blocks ⟨0, []⟩).length :=
    statements.map_fst_numbered
  have length := statements.length_allBlocks
  rcases Nat.lt_or_ge id (statements.blocks ⟨0, []⟩).length with inside | outside
  · -- A block of the statements holds no branch any more.
    have member : (id, (statements.blocks ⟨0, []⟩)[id]) ∈ statements.numbered :=
      List.mem_iff_getElem.mpr ⟨id, by simpa [numbered] using inside, by simp [numbered]⟩
    intro inst among
    rw [Node.instructions, collapsed.bared _ member List.not_mem_nil] at among
    have isStep := (statements.segment_alone (Opened.straight_fresh 0)).steps _ (List.getElem_mem inside) inst among
    exact ⟨isStep.straight, isStep.plain⟩
  · have notInner : id ∉ (statements.part ⟨0, []⟩ statements.numbered).ids := by
      rw [ids, List.mem_range]
      exact Nat.not_lt_of_le outside
    rcases Nat.lt_or_ge id laid.graph.size with bound | beyond
    · by_cases isRoot : id = statements.allBlocks.length + 1
      · exact empty (isRoot ▸ owner.isBlock_eq_false)
      · rw [Node.Plain, kept notInner bound isRoot]
        rcases Nat.lt_or_ge id statements.allBlocks.length with isReturn | isLast
        · have stands := stands_of_entered planned entered isReturn
          have plain : statements.allBlocks[id].jump = none := by
            obtain rfl : id = (statements.blocks ⟨0, []⟩).length := by omega
            simp [allBlocks]
          intro inst among
          rw [stands.instructions, PlannedBlock.instructions_eq_body plain] at among
          have isStep := planned.segment.steps _ (List.getElem_mem isReturn) inst among
          exact ⟨isStep.straight, isStep.plain⟩
        · obtain rfl : id = statements.allBlocks.length := by omega
          rw [(last_of_entered entered).2.2.1]
          exact List.forall_mem_nil _
    · exact empty (collapsed.reworks.fresh id beyond)

theorem reaches_buildConditionals {laid : Session} (noChains : source.features.has .shortCircuit = false)
    (tidied : laid.Tidied True) (unclaimed : laid.claims = {})
    (entered : laid.context.Entered (slicesOf statements.allBlocks statements.finish) code) :
    Succeeds (buildConditionals source) laid fun _ next => ∃ built, statements.Built laid next built := by
  have chains : Succeeds (buildChains source) laid fun _ next => next = laid := by
    unfold buildChains
    rw [noChains, if_neg (by simp)]
    exact .pure rfl
  refine .bind chains fun _ next same => ?_
  rw [same]
  have breaks : Succeeds convertSwitchBreaks laid fun _ next => next = laid := by
    refine .getClaims_bind ?_
    rw [unclaimed]
    exact .pure rfl
  refine .bind breaks fun _ next same => ?_
  rw [same]
  refine .getContext_bind (.getClaims_bind ?_)
  have listed : laid.blocks = List.range (statements.allBlocks.length + 1) := by
    rw [entered.whole, length_slicesOf]
  have conditions : (laid.blocks.reverse.filter fun block => !laid.claims.isClaimed block &&
      (laid.graph.node block).lastOpcode? == some .bf) =
        (statements.part ⟨0, []⟩ statements.numbered).heads.reverse := by
    rw [← conditions_eq entered, listed, unclaimed]
    rfl
  rw [conditions]
  have collapses : Collapses source (statements.part ⟨0, []⟩ statements.numbered) :=
    statements.collapses (Opened.straight_fresh 0) statements.map_snd_numbered
  have revises : Revises Rights.full ((statements.part ⟨0, []⟩ statements.numbered).heads.reverse.forM
      (buildConditional source)) laid fun _ _ => True :=
    .forEach fun _ _ _ _ => revises_buildConditional trivial
  refine .bind (.and_returns (collapses.reaches (statements.ready entered tidied))
    (.of_revises revises tidied.sound)) fun _ next ⟨⟨tiles, built, collapsed⟩, _, edits, _⟩ => .getContext_bind ?_
  -- No branch is left to complain about.
  have owner : laid.graph.Owner (statements.allBlocks.length + 1) := by
    refine tidied.sound.fragments _ ?_
    rw [entered.whole, length_slicesOf]
    exact .head _
  have plain := plain_of_built entered tidied ⟨tiles, collapsed⟩ (edits.owner owner)
  have nothing : next.blocks.findSome? (leftoverFailure? source next.context laid.claims) = none := by
    refine List.findSome?_eq_none_iff.mpr fun block _ => Option.bind_eq_none_iff.mpr fun inst isLast => ?_
    simp [((plain block).last isLast).1]
  rw [nothing]
  exact .pure ⟨built, tiles, collapsed⟩

theorem reaches_run (name : String) (symbols : Symbols) {features : Features}
    (noChains : features.has .shortCircuit = false) :
    Succeeds (runPasses ⟨statements.code name symbols, features⟩ {} [] Pass.standard) {} fun _ final =>
      ∃ laid next built, laid.context.Entered (slicesOf statements.allBlocks statements.finish)
        (statements.code name symbols) ∧ statements.Built laid next built ∧ final.context = next.context := by
  refine reaches_ahead statements.planned (inOrder_placeFrom _ _) rfl (statements.instructions_code name symbols) rfl
    (fun _ entered => caseTarget?_eq_none entered) fun changed laid tidied unclaimed entered => ?_
  have builds : Succeeds (Pass.branches.apply ⟨statements.code name symbols, features⟩) laid fun _ next =>
      next.claims = {} ∧ next.graph.Mutual ∧
        ∃ built other, statements.Built laid other built ∧ next.context = other.context := by
    refine .imp (reaches_buildConditionals noChains tidied unclaimed entered) ?_
    rintro _ next ⟨built, tiles, collapsed⟩
    exact ⟨collapsed.claims.trans unclaimed, collapsed.tidied.sound.graph.edges, built, next, ⟨tiles, collapsed⟩, rfl⟩
  refine reaches_runPasses_cons rfl ((Reaches.applyPass (fun context claims => claims = {} ∧ context.graph.Mutual ∧
    ∃ built other, statements.Built laid other built ∧ context = other.context) builds
    (fun _ _ _ known => known.2.1) true).and_returns
    (tidies_applyPass (by simp [Pass.standard]) true tidied)) ?_
  rintro _ changed next ⟨⟨unclaimed, _, built, other, isBuilt, same⟩, tidiedNext⟩
  obtain ⟨tiles, collapsed⟩ := isBuilt
  have frame := collapsed.frame
  rw [← same] at frame
  have finished : next.Finished := by
    refine ⟨tidiedNext.sound, ?_, ?_, fun id => ?_, unclaimed⟩
    · rw [frame, entered.whole, ne_eq, List.range_eq_nil, length_slicesOf]
      exact Nat.succ_ne_zero _
    · rw [frame, entered.whole]
      rfl
    · rw [same]
      refine plain_of_built entered tidied ⟨tiles, collapsed⟩ ?_ id
      rw [← same]
      refine tidiedNext.sound.fragments _ ?_
      rw [frame, entered.whole, length_slicesOf]
      exact .head _
  obtain ⟨early, log, ran⟩ : ∃ early log, (runPasses ⟨statements.code name symbols, features⟩ {} changed
      [.switchInsert, .staticInit]).run next = .ok ⟨early, changed⟩ { next with log } :=
    finished.run_runPasses {} changed (by simp [Pass.standard])
  exact .of_ok ran ⟨laid, other, built, entered, ⟨tiles, collapsed⟩, same⟩

variable {laid next : Session} {built : List (PlacedIf × NodeId)}

theorem nodup_built (isBuilt : statements.Built laid next built) : (built.map (·.1)).Nodup := by
  obtain ⟨tiles, collapsed⟩ := isBuilt
  have sorted := statements.sorted_nest 0 none
  rw [collapsed.listed, List.nodup_reverse]
  refine List.pairwise_map.mpr (sorted.imp fun before same => ?_)
  exact absurd (congrArg PlacedIf.turn same) (Nat.ne_of_lt before)

theorem standsFor_of_built (isBuilt : statements.Built laid next built) {entry : PlacedIf × NodeId}
    (member : entry ∈ built) : StandsFor next.graph statements.numbered entry.1 entry.2 := by
  have nodup := nodup_built isBuilt
  obtain ⟨tiles, collapsed⟩ := isBuilt
  have listed : entry.1 ∈ ((statements.nest 0 none).map (·.1)).reverse := by
    have among : entry.1 ∈ built.map (·.1) := List.mem_map_of_mem member
    rwa [collapsed.listed] at among
  obtain ⟨⟨key, around⟩, among, same⟩ := List.mem_map.mp (List.mem_reverse.mp listed)
  obtain ⟨id, isId, isFor, _⟩ := collapsed.nested (key, around) among
  dsimp only at same isId isFor
  subst same
  have sameEntry : (entry.1, id) = entry := List.inj_on_of_nodup_map nodup isId member rfl
  rw [← sameEntry]
  exact isFor

theorem eq_of_node (isBuilt : statements.Built laid next built) {first second : PlacedIf × NodeId}
    (isFirst : first ∈ built) (isSecond : second ∈ built) (same : first.2 = second.2) : first = second := by
  obtain ⟨stop, parts, block, target, isKind, hasElse, member, jumps, turn⟩ := standsFor_of_built isBuilt isFirst
  obtain ⟨stop', parts', block', target', isKind', hasElse', member', jumps', turn'⟩ :=
    standsFor_of_built isBuilt isSecond
  rw [same] at stop isKind
  cases isKind.symm.trans isKind'
  have sameBlock : block = block' := Option.some.inj
    ((getElem?_of_mem_numbered member).symm.trans (getElem?_of_mem_numbered member'))
  subst sameBlock
  have sameKey : first.1 = second.1 := by
    obtain ⟨⟨turn, hasElse, join⟩, _⟩ := first
    obtain ⟨⟨turn', hasElse', join'⟩, _⟩ := second
    simp_all
  exact Prod.ext sameKey same

end Statements

/-- Whatever conditionals a program has, and however they are nested, each of them is recovered as one
conditional. Its condition is the block that ended in the branch, it goes up to where its arms meet, it
has an `else` just when the program has one, and it is inside the conditional that is around it in the
program. -/
theorem conditionals_recovered (statements : Statements) (name : String) (symbols : Symbols) (features : Features)
    (noChains : features.has .shortCircuit = false) :
    ∃ (outcome : RunOutcome) (final : Session) (root : NodeId) (node : PlacedIf → NodeId),
      structureEntry ⟨statements.code name symbols, features⟩ = .ok outcome final ∧
      final.root = some root ∧ final.conditionals.Nodup ∧
      final.conditionals.Perm ((statements.nest 0 none).map fun entry => node entry.1) ∧
      ∀ conditional around, (conditional, around) ∈ statements.nest 0 none →
        (final.graph.node (node conditional)).stop = conditional.join ∧
        (final.graph.node (node conditional)).parent = some ((around.map node).getD root) ∧
        ∃ parts index range before branch,
          (final.graph.node (node conditional)).kind = .conditional parts ∧
          parts.otherwise.isSome = conditional.hasElse ∧ final.blocks[index]? = some parts.condition ∧
          (sliceAt (cutPoints (statements.code name symbols)) (statements.code name symbols).instructions)[index]? =
            some (range, before ++ [branch]) ∧
          branch.opcode = .bf ∧ branch.address = conditional.turn ∧
          (final.graph.node parts.condition).kind = .block ⟨index, before⟩ := by
  obtain ⟨outcome, final, done, laid, next, built, entered, isBuilt, same⟩ :=
    (statements.reaches_run name symbols noChains).ok
  have nodup := Statements.nodup_built isBuilt
  obtain ⟨tiles, collapsed⟩ := isBuilt
  have frame := collapsed.frame
  rw [← same, entered.whole] at frame
  have conditionals : final.conditionals = built.map (·.2) := by
    rw [frame]
    rfl
  refine ⟨outcome, final, statements.allBlocks.length + 1, nodeOf built, done, ?_, ?_, ?_,
    fun conditional around member => ?_⟩
  · rw [frame, length_slicesOf]
  · rw [conditionals]
    exact List.Nodup.map_on (fun first isFirst second isSecond => Statements.eq_of_node ⟨tiles, collapsed⟩ isFirst isSecond)
      (List.Nodup.of_map _ nodup)
  · rw [conditionals, ← map_nodeOf nodup, collapsed.listed]
    have same : (statements.nest 0 none).map (fun entry => nodeOf built entry.1) =
        ((statements.nest 0 none).map (·.1)).map (nodeOf built) := by
      rw [List.map_map]
      rfl
    rw [same]
    exact (List.reverse_perm _).map _
  · obtain ⟨id, isBuilt, ⟨stop, parts, block, target, isKind, hasElse, isBlock, jumps, turn⟩, owned⟩ :=
      collapsed.nested _ member
    have isNode : nodeOf built conditional = id := nodeOf_eq nodup isBuilt
    have isPlace := Statements.getElem?_of_mem_numbered isBlock
    have inside := (List.getElem?_eq_some_iff.mp isPlace).1
    rw [isNode, congrArg Context.graph same]
    refine ⟨stop, ?_, parts, parts.condition, ⟨block.start, block.stop⟩, placeFrom block.start block.body,
      { branch .bf target with address := block.start + extent block.body }, isKind, hasElse, ?_, ?_, rfl, turn, ?_⟩
    · cases around with
      | none => exact collapsed.level (mem_row_of_inner owned)
      | some outer =>
        obtain ⟨owner, isOwner, parent⟩ := owned
        have isOuter : nodeOf built outer = owner := nodeOf_eq nodup isOwner
        simpa [isOuter] using parent
    · rw [frame, length_slicesOf, List.getElem?_range]
      rw [Statements.length_allBlocks]
      exact Nat.lt_succ_of_lt (Nat.lt_succ_of_lt inside)
    · rw [statements.planned.sliceAt_eq (statements.instructions_code name symbols) rfl rfl, slicesOf,
        List.getElem?_append_left, List.getElem?_map, Statements.allBlocks, List.getElem?_append_left inside, isPlace]
      · rw [Option.map_some, PlannedBlock.slice, PlannedBlock.instructions_eq_concat jumps]
      · rw [List.length_map, Statements.length_allBlocks]
        exact Nat.lt_succ_of_lt inside
    · exact collapsed.bared _ isBlock List.not_mem_nil

def nestedElse : Statements :=
  .ifElse (pushRun 1) (.ifElse (pushRun 2) (.run (pushRun 3) .done) .done .done) (.run (pushRun 4) .done) .done

theorem conditionals_recovered_nestedElse :
    Features.has ⟨0⟩ .shortCircuit = false ∧
    ∃ (outcome : RunOutcome) (final : Session) (root outer inner : NodeId),
      structureEntry ⟨nestedElse.code "nested" {}, ⟨0⟩⟩ = .ok outcome final ∧
      final.conditionals.Perm [outer, inner] ∧ outer ≠ inner ∧
      (∃ parts, (final.graph.node inner).kind = .conditional parts ∧ parts.otherwise.isSome = true) ∧
      (final.graph.node inner).stop = 24 ∧ (final.graph.node inner).parent = some outer ∧
      (final.graph.node outer).stop = 32 ∧ (final.graph.node outer).parent = some root := by
  refine ⟨rfl, ?_⟩
  obtain ⟨outcome, final, root, node, done, _, nodup, perm, each⟩ :=
    conditionals_recovered nestedElse "nested" {} ⟨0⟩ rfl
  have isPerm : final.conditionals.Perm [node ⟨4, true, 32⟩, node ⟨12, true, 24⟩] := perm
  have outer := each ⟨4, true, 32⟩ none (.head _)
  have inner := each ⟨12, true, 24⟩ (some ⟨4, true, 32⟩) (.tail _ (.head _))
  have apart := isPerm.nodup_iff.mp nodup
  obtain ⟨stop, parent, parts, _, _, _, _, isKind, hasElse, _⟩ := inner
  exact ⟨outcome, final, root, _, _, done, isPerm, by simpa using apart, ⟨parts, isKind, hasElse⟩, stop, parent,
    outer.1, outer.2.1⟩

end Structuring.BranchNest
