import Structuring.Proofs.LoopNest.Geometry

/-! The blocks of a program.

Pieces of code are read one after another. A block is closed behind the branch of a loop, and at a
label unless nothing has been read since the last block. What is known of the blocks so made is all
that the recovery of loops depends on.
-/

namespace Structuring.LoopNest

open Bytecode Recovery FlowGraph

variable {inst : Instruction}

structure Scaffold where
  loop : PlacedLoop
  role : Role
  ending : List Instruction

structure BlockPlan where
  start : Nat
  stop : Nat
  /-- The loop whose counter is discarded at the start. -/
  lead : Option (PlacedLoop × Instruction)
  middle : List Instruction
  scaffold : Option Scaffold

namespace BlockPlan

def leading (gone : List PlacedLoop) (block : BlockPlan) : List Instruction :=
  match block.lead with
  | some (loop, discard) => if loop ∈ gone then [] else [discard]
  | none => []

def ending (gone : List PlacedLoop) (block : BlockPlan) : List Instruction :=
  match block.scaffold with
  | some scaffold => if scaffold.loop ∈ gone then [] else scaffold.ending
  | none => []

def remains (gone : List PlacedLoop) (block : BlockPlan) : List Instruction :=
  block.leading gone ++ block.middle ++ block.ending gone

def instructions (block : BlockPlan) : List Instruction := block.remains []

def slice (block : BlockPlan) : AddressRange × List Instruction :=
  (⟨block.start, block.stop⟩, block.instructions)

theorem instructions_eq (block : BlockPlan) : block.instructions =
    (block.lead.map (·.2)).toList ++ block.middle ++ ((block.scaffold.map (·.ending)).getD []) := by
  unfold instructions remains leading ending
  cases block.lead <;> cases block.scaffold <;> simp

end BlockPlan

/-! Reading pieces -/

structure Cutter where
  /-- Where the next piece goes. -/
  place : Nat
  start : Nat
  lead : Option (PlacedLoop × Instruction)
  middle : List Instruction
  closed : List BlockPlan

namespace Cutter

def fresh : Cutter := ⟨0, 0, none, [], []⟩

def opened (cutter : Cutter) (scaffold : Option Scaffold) : BlockPlan :=
  ⟨cutter.start, cutter.place + extent ((scaffold.map (·.ending)).getD []), cutter.lead,
    cutter.middle, scaffold⟩

def step (cutter : Cutter) : Piece → Cutter
  | .label =>
    if cutter.start = cutter.place then cutter
    else ⟨cutter.place, cutter.place, none, [], cutter.closed ++ [cutter.opened none]⟩
  | .steps instructions =>
    { cutter with
      place := cutter.place + extent instructions
      middle := cutter.middle ++ placeFrom cutter.place instructions }
  | .scaffold loop role ending discard =>
    let stop := cutter.place + extent ending
    let closed := cutter.opened (some ⟨loop, role, placeFrom cutter.place ending⟩)
    ⟨stop + extent discard.toList, stop,
      discard.map fun inst => (loop, { inst with address := stop }), [],
      cutter.closed ++ [closed]⟩

def run (cutter : Cutter) (pieces : List Piece) : Cutter := pieces.foldl step cutter

def blocks (cutter : Cutter) : List BlockPlan := cutter.closed ++ [cutter.opened none]

theorem run_append (cutter : Cutter) (first second : List Piece) :
    cutter.run (first ++ second) = (cutter.run first).run second := List.foldl_append

end Cutter

/-! What a block has to do with loops -/

def branchOf (loop : PlacedLoop) (role : Role) : Option (Opcode × Nat) :=
  match loop.shape, role with
  | .whileLoop, .condition => some (.bf, loop.stop)
  | .whileLoop, .tail => some (.b, loop.start)
  | .doUntil, .tail => some (.bf, loop.start)
  | .repeatLoop, .prelude => some (.bt, loop.stop)
  | .repeatLoop, .tail => some (.bt, loop.start)
  | .withLoop, .prelude => some (.pushenv, loop.turn)
  | .withLoop, .tail => some (.popenv, loop.start)
  | _, _ => none

structure IsScaffold (typed : Bool) (loop : PlacedLoop) (role : Role) (ending : List Instruction) :
    Prop where
  branches : ∃ last opcode target, ending.getLast? = some last ∧
    branchOf loop role = some (opcode, target) ∧ last.opcode = opcode ∧ last.operand = .branch target
  before : ∀ inst ∈ ending.dropLast, IsStraight inst ∧ inst.compares .equal = false
  single : loop.shape ≠ .repeatLoop → ending.length = 1
  tests : loop.shape = .repeatLoop → role = .prelude →
    ending.length = 4 ∧ ∀ front, endsInCounterTest (front ++ ending) loop.stop = true
  counts : loop.shape = .repeatLoop → role = .tail →
    ending.length = decrementLength typed ∧ ∀ front, endsInDecrement (front ++ ending) typed = true

def BlockPlan.Holds (block : BlockPlan) (loop : PlacedLoop) : Role → Prop
  | .prelude => block.stop = loop.start
  | .condition => block.start = loop.start
  | .tail => block.stop = loop.stop ∧ loop.start ≤ block.start ∧
    (loop.shape = .withLoop → block.start = loop.turn ∧ block.lead = none ∧ block.middle = [])

structure IsStep (finish : Nat) (inst : Instruction) : Prop where
  straight : inst.isBranch = false
  plain : inst.opcode.takesLabel = false
  returns : inst.isReturn = true → inst.nextAddress = finish

def IsLabel (loops : List PlacedLoop) (address : Nat) : Prop :=
  ∃ loop ∈ loops, address = loop.start ∨ loop.shape = .withLoop ∧ address = loop.turn

def LeadFits (loops : List PlacedLoop) (start : Nat) (lead : Option (PlacedLoop × Instruction)) : Prop :=
  ∀ loop discard, lead = some (loop, discard) →
    loop ∈ loops ∧ loop.shape = .repeatLoop ∧ start = loop.stop ∧ discard.opcode = .popz

structure BlockPlan.Fits (typed : Bool) (loops : List PlacedLoop) (finish : Nat) (block : BlockPlan) :
    Prop where
  lead : LeadFits loops block.start block.lead
  middle : ∀ inst ∈ block.middle, IsStep finish inst
  scaffold : ∀ scaffold, block.scaffold = some scaffold →
    scaffold.loop ∈ loops ∧ IsScaffold typed scaffold.loop scaffold.role scaffold.ending ∧
      block.Holds scaffold.loop scaffold.role
  closes : block.scaffold = none → IsLabel loops block.stop ∨ block.stop = finish
  placed : placeFrom block.start block.instructions = block.instructions
  stop : block.stop = block.start + extent block.instructions

def Chained (start : Nat) : List BlockPlan → Nat → Prop
  | [], stop => start = stop
  | block :: rest, stop => block.start = start ∧ block.start < block.stop ∧ Chained block.stop rest stop

theorem chained_concat {start stop : Nat} {blocks : List BlockPlan} {block : BlockPlan} :
    Chained start (blocks ++ [block]) stop ↔
      Chained start blocks block.start ∧ block.start < block.stop ∧ block.stop = stop := by
  induction blocks generalizing start with
  | nil => simp [Chained, eq_comm]
  | cons first rest ih => simp [Chained, ih, and_assoc]

namespace Cutter

structure Good (typed : Bool) (loops : List PlacedLoop) (finish : Nat) (cutter : Cutter) : Prop where
  lead : LeadFits loops cutter.start cutter.lead
  middle : ∀ inst ∈ cutter.middle, IsStep finish inst
  placed : placeFrom cutter.start (cutter.opened none).instructions = (cutter.opened none).instructions
  place : cutter.place = cutter.start + extent (cutter.opened none).instructions
  closed : ∀ block ∈ cutter.closed, block.Fits typed loops finish
  chained : Chained 0 cutter.closed cutter.start

variable {typed : Bool} {loops : List PlacedLoop} {finish : Nat} {cutter next : Cutter}

theorem instructions_opened (cutter : Cutter) (scaffold : Option Scaffold) :
    (cutter.opened scaffold).instructions =
      (cutter.opened none).instructions ++ ((scaffold.map (·.ending)).getD []) := by
  cases scaffold <;> simp [BlockPlan.instructions_eq, opened]

theorem good_fresh : Good typed loops finish fresh where
  lead := fun _ _ same => absurd same (by simp [fresh])
  middle := List.forall_mem_nil _
  placed := rfl
  place := rfl
  closed := List.forall_mem_nil _
  chained := rfl

section

variable (good : cutter.Good typed loops finish)

include good

theorem Good.empty (here : cutter.start = cutter.place) : cutter.lead = none ∧ cutter.middle = [] := by
  have none : (cutter.opened none).instructions = [] := by
    refine Classical.byContradiction fun some => ?_
    have := extent_pos some
    have := good.place
    omega
  cases isLead : cutter.lead with
  | none => simpa [BlockPlan.instructions_eq, opened, isLead] using none
  | some lead => simp [BlockPlan.instructions_eq, opened, isLead] at none

theorem Good.fits {scaffold : Option Scaffold}
    (isScaffold : ∀ found, scaffold = some found →
      found.loop ∈ loops ∧ IsScaffold typed found.loop found.role found.ending ∧
        (cutter.opened (some found)).Holds found.loop found.role ∧
        placeFrom cutter.place found.ending = found.ending)
    (closes : scaffold = none → IsLabel loops cutter.place ∨ cutter.place = finish) :
    (cutter.opened scaffold).Fits typed loops finish where
  lead := good.lead
  middle := good.middle
  scaffold := by
    rintro found rfl
    obtain ⟨member, isScaffold, holds, _⟩ := isScaffold found rfl
    exact ⟨member, isScaffold, holds⟩
  closes := by
    rintro rfl
    exact closes rfl
  placed := by
    rw [instructions_opened, placeFrom_append]
    show placeFrom cutter.start (cutter.opened none).instructions ++ placeFrom (cutter.start + _) _ = _
    rw [good.placed, ← good.place]
    cases scaffold with
    | none => rfl
    | some found => rw [Option.map_some, Option.getD_some, (isScaffold found rfl).2.2.2]
  stop := by
    rw [instructions_opened, extent_append]
    show cutter.place + _ = cutter.start + _
    rw [good.place]
    omega

theorem Good.label (isLabel : IsLabel loops cutter.place ∨ cutter.place = finish) :
    (cutter.step .label).Good typed loops finish ∧ (cutter.step .label).place = cutter.place ∧
      (cutter.step .label).start = cutter.place ∧ (cutter.step .label).lead = none ∧
      (cutter.step .label).middle = [] := by
  rw [step]
  split
  · next here =>
    obtain ⟨noLead, noMiddle⟩ := good.empty here
    exact ⟨good, rfl, here, noLead, noMiddle⟩
  · next apart =>
    refine ⟨⟨?_, ?_, rfl, rfl, fun block member => ?_, chained_concat.mpr ?_⟩, rfl, rfl, rfl, rfl⟩
    · exact fun _ _ same => absurd same (by simp)
    · exact List.forall_mem_nil _
    · rcases List.mem_append.mp member with old | new
      · exact good.closed block old
      · rw [List.mem_singleton.mp new]
        exact good.fits (fun _ same => absurd same (by simp)) fun _ => isLabel
    · refine ⟨good.chained, ?_, rfl⟩
      have := good.place
      show cutter.start < cutter.place
      omega

theorem Good.steps {instructions : List Instruction}
    (areSteps : ∀ inst ∈ placeFrom cutter.place instructions, IsStep finish inst) :
    (cutter.step (.steps instructions)).Good typed loops finish := by
  have more : ((cutter.step (.steps instructions)).opened none).instructions =
      (cutter.opened none).instructions ++ placeFrom cutter.place instructions := by
    simp [BlockPlan.instructions_eq, opened, step]
  refine ⟨good.lead, fun inst member => ?_, ?_, ?_, good.closed, good.chained⟩
  · rcases List.mem_append.mp member with old | new
    · exact good.middle inst old
    · exact areSteps inst new
  · rw [more, placeFrom_append]
    show placeFrom cutter.start _ ++ placeFrom (cutter.start + _) _ = _
    rw [good.placed, ← good.place, placeFrom_placeFrom]
  · rw [more, extent_append, extent_placeFrom]
    show cutter.place + _ = cutter.start + _
    rw [good.place]
    omega

theorem Good.scaffold {loop : PlacedLoop} {role : Role}
    {ending : List Instruction} {discard : Option Instruction} (member : loop ∈ loops)
    (isScaffold : IsScaffold typed loop role (placeFrom cutter.place ending))
    (holds : (cutter.opened (some ⟨loop, role, placeFrom cutter.place ending⟩)).Holds loop role)
    (discards : ∀ inst, discard = some inst →
      loop.shape = .repeatLoop ∧ cutter.place + extent ending = loop.stop ∧ inst.opcode = .popz) :
    (cutter.step (.scaffold loop role ending discard)).Good typed loops finish := by
  have fits : (cutter.opened (some ⟨loop, role, placeFrom cutter.place ending⟩)).Fits typed loops finish :=
    good.fits (fun _ same => Option.some.inj same ▸ ⟨member, isScaffold, holds, placeFrom_placeFrom _ _ _⟩)
      fun none => absurd none (by simp)
  refine ⟨fun other inst isLead => ?_, List.forall_mem_nil _, ?_, ?_,
    fun block among => ?_, chained_concat.mpr ⟨good.chained, ?_, ?_⟩⟩
  · obtain ⟨old, isDiscard, same⟩ := Option.map_eq_some_iff.mp isLead
    obtain ⟨rfl, rfl⟩ := Prod.mk.inj same
    obtain ⟨shape, stop, opcode⟩ := discards old isDiscard
    exact ⟨member, shape, stop, opcode⟩
  · cases discard <;> rfl
  · cases discard <;> rfl
  · rcases List.mem_append.mp among with old | new
    · exact good.closed block old
    · rw [List.mem_singleton.mp new]
      exact fits
  · obtain ⟨last, _, _, isLast, _⟩ := isScaffold.branches
    have nonempty : ending ≠ [] := by
      rintro rfl
      exact absurd isLast (by simp [placeFrom])
    have := extent_pos nonempty
    have := good.place
    simp only [opened, Option.map_some, Option.getD_some, extent_placeFrom]
    omega
  · simp [opened, step]

end

/-! Blocks stay -/

structure Extends (cutter next : Cutter) : Prop where
  closed : ∀ block ∈ cutter.closed, block ∈ next.closed
  start : cutter.start ≤ next.start
  first : ∃ block ∈ next.blocks, block.start = cutter.start ∧ block.lead = cutter.lead

namespace Extends

theorem refl (cutter : Cutter) : Extends cutter cutter :=
  ⟨fun _ => id, Nat.le_refl _, cutter.opened none, by simp [blocks], rfl, rfl⟩

theorem trans {final : Cutter} (first : Extends cutter next) (second : Extends next final) :
    Extends cutter final := by
  refine ⟨fun block member => second.closed block (first.closed block member),
    Nat.le_trans first.start second.start, ?_⟩
  obtain ⟨block, member, start, lead⟩ := first.first
  rcases List.mem_append.mp member with old | last
  · exact ⟨block, List.mem_append_left _ (second.closed block old), start, lead⟩
  · obtain ⟨found, among, sameStart, sameLead⟩ := second.first
    rw [List.mem_singleton.mp last] at start lead
    exact ⟨found, among, sameStart.trans start, sameLead.trans lead⟩

theorem block (extend : Extends cutter next) {block : BlockPlan} (member : block ∈ cutter.blocks) :
    ∃ found ∈ next.blocks, found.start = block.start ∧ found.lead = block.lead := by
  rcases List.mem_append.mp member with old | last
  · exact ⟨block, List.mem_append_left _ (extend.closed block old), rfl, rfl⟩
  · rw [List.mem_singleton.mp last]
    exact extend.first

theorem step (ahead : cutter.start ≤ cutter.place) (piece : Piece) : Extends cutter (cutter.step piece) := by
  cases piece with
  | label =>
    rw [Cutter.step]
    split
    · exact .refl cutter
    · refine ⟨fun _ old => List.mem_append_left _ old, ahead, cutter.opened none, ?_, rfl, rfl⟩
      simp [blocks]
  | steps instructions =>
    exact ⟨fun _ => id, Nat.le_refl _, _, List.mem_append_right _ (.head _), rfl, rfl⟩
  | scaffold loop role ending discard =>
    refine ⟨fun _ old => List.mem_append_left _ old, ?_,
      cutter.opened (some ⟨loop, role, placeFrom cutter.place ending⟩), ?_, rfl, rfl⟩
    · exact Nat.le_trans ahead (Nat.le_add_right _ _)
    · simp [blocks, Cutter.step]

end Extends

theorem start_le_step (ahead : cutter.start ≤ cutter.place) (piece : Piece) :
    (cutter.step piece).start ≤ (cutter.step piece).place := by
  cases piece with
  | label =>
    rw [step]
    split
    · exact ahead
    · exact Nat.le_refl _
  | steps instructions => exact Nat.le_trans ahead (Nat.le_add_right _ _)
  | scaffold loop role ending discard => exact Nat.le_add_right _ _

theorem Extends.run (ahead : cutter.start ≤ cutter.place) (pieces : List Piece) :
    Extends cutter (cutter.run pieces) := by
  induction pieces generalizing cutter with
  | nil => exact .refl cutter
  | cons piece rest ih => exact .trans (.step ahead piece) (ih (start_le_step ahead piece))

theorem Good.extend (good : cutter.Good typed loops finish) (pieces : List Piece) :
    Extends cutter (cutter.run pieces) := by
  have := good.place
  exact .run (by omega) pieces

def Has (cutter : Cutter) (loop : PlacedLoop) (role : Role) : Prop :=
  ∃ block ∈ cutter.closed, ∃ ending, block.scaffold = some ⟨loop, role, ending⟩

theorem has_scaffold (cutter : Cutter) (loop : PlacedLoop) (role : Role) (ending : List Instruction)
    (discard : Option Instruction) : (cutter.step (.scaffold loop role ending discard)).Has loop role :=
  ⟨_, List.mem_append_right _ (.head _), _, rfl⟩

structure Built (loop : PlacedLoop) (cutter : Cutter) : Prop where
  branches : ∀ role, (branchOf loop role).isSome = true → cutter.Has loop role
  head : ∃ block ∈ cutter.blocks, block.start = loop.start
  exit : loop.shape = .repeatLoop → ∃ block ∈ cutter.blocks, ∃ discard, block.lead = some (loop, discard)

theorem Has.extend {loop : PlacedLoop} {role : Role} (has : cutter.Has loop role)
    (extend : Extends cutter next) : next.Has loop role := by
  obtain ⟨block, member, isScaffold⟩ := has
  exact ⟨block, extend.closed block member, isScaffold⟩

theorem Built.extend {loop : PlacedLoop} (built : Built loop cutter) (extend : Extends cutter next) :
    Built loop next := by
  refine ⟨fun role has => (built.branches role has).extend extend, ?_, fun isRepeat => ?_⟩
  · obtain ⟨block, member, start⟩ := built.head
    obtain ⟨found, among, same, _⟩ := extend.block member
    exact ⟨found, among, same.trans start⟩
  · obtain ⟨block, member, discard, lead⟩ := built.exit isRepeat
    obtain ⟨found, among, _, same⟩ := extend.block member
    exact ⟨found, among, discard, same.trans lead⟩

end Cutter

/-! The pieces of loops -/

section

variable {typed : Bool} {loop : PlacedLoop} {role : Role} (address : Nat)

theorem isScaffold_branch {opcode : Opcode} {target : Nat} (shape : loop.shape ≠ .repeatLoop)
    (isBranch : branchOf loop role = some (opcode, target)) :
    IsScaffold typed loop role (placeFrom address [branch opcode target]) where
  branches := ⟨_, opcode, target, rfl, isBranch, rfl, rfl⟩
  before := List.forall_mem_nil _
  single := fun _ => rfl
  tests := fun isRepeat => absurd isRepeat shape
  counts := fun isRepeat => absurd isRepeat shape

theorem isStraight_of_opcode (goesOn : inst.opcode.isBranch = false)
    (stays : inst.isReturn = false) : IsStraight inst := by
  refine ⟨?_, ?_, stays⟩
  · unfold Instruction.isBranch Instruction.branchTarget?
    split
    · rw [if_neg (by simp [goesOn])]
      rfl
    · rfl
  · cases isOpcode : inst.opcode <;> simp_all [Opcode.isBranch, Opcode.takesLabel]

theorem isStraight_counter (known : inst.opcode = .dup ∨ inst.opcode = .sub ∨ inst.opcode = .conv) :
    IsStraight inst ∧ inst.compares .equal = false := by
  refine ⟨isStraight_of_opcode ?_ ?_, ?_⟩ <;> rcases known with same | same | same <;>
    simp [Opcode.isBranch, Instruction.isReturn, Instruction.compares, same]

theorem isStraight_constant {value : Int} (isConstant : inst.constant? = some value) :
    IsStraight inst ∧ inst.compares .equal = false := by
  unfold Instruction.constant? at isConstant
  split at isConstant
  · next pushes =>
    have known : inst.opcode = .push ∨ inst.opcode = .pushi := by simpa using pushes
    refine ⟨isStraight_of_opcode ?_ ?_, ?_⟩ <;> rcases known with same | same <;>
      simp [Opcode.isBranch, Instruction.isReturn, Instruction.compares, same]
  · cases isConstant

theorem isScaffold_test (counter : Counter) (shape : loop.shape = .repeatLoop) :
    IsScaffold typed loop .prelude (placeFrom address (counter.test loop.stop)) := by
  have zero (place : Nat) : ({ counter.zero with address := place } : Instruction).constant? = some 0 :=
    counter.isZero
  have compares (place : Nat) :
      ({ counter.compare with address := place } : Instruction).compares .lessEqual = true :=
    counter.compares
  refine ⟨⟨_, .bt, loop.stop, rfl, by simp [branchOf, shape], rfl, rfl⟩, fun inst member => ?_,
    fun other => absurd shape other, fun _ _ => ⟨rfl, fun front => ?_⟩,
    fun _ other => absurd other (by simp)⟩
  · simp only [Counter.test, placeFrom, List.dropLast, List.mem_cons, List.not_mem_nil, or_false] at member
    rcases member with rfl | rfl | rfl
    · exact isStraight_counter (.inl counter.copies)
    · exact isStraight_constant (zero _)
    · have known := counter.compares
      simp only [Instruction.compares, Bool.and_eq_true, beq_iff_eq] at known
      refine ⟨isStraight_of_opcode ?_ ?_, ?_⟩ <;>
        simp [Opcode.isBranch, Instruction.isReturn, Instruction.compares, known]
  · simp [endsInCounterTest, Counter.test, placeFrom, counter.copies, zero, compares, branch,
      Instruction.targetOf?, Instruction.branchTarget?, Opcode.isBranch]

theorem isScaffold_countDown (counter : Counter) (shape : loop.shape = .repeatLoop) :
    IsScaffold typed loop .tail (placeFrom address (counter.countDown typed loop.start)) := by
  have one (place : Nat) : ({ counter.one with address := place } : Instruction).constant? = some 1 :=
    counter.isOne
  have isBranch : branchOf loop .tail = some (.bt, loop.start) := by simp [branchOf, shape]
  refine ⟨?_, fun inst member => ?_, fun other => absurd shape other,
    fun _ other => absurd other (by simp), fun _ _ => ⟨by cases typed <;> rfl, fun front => ?_⟩⟩
  · cases typed <;> exact ⟨_, .bt, loop.start, rfl, isBranch, rfl, rfl⟩
  · have known : (∃ place, inst = { counter.one with address := place }) ∨
        inst.opcode = .dup ∨ inst.opcode = .sub ∨ inst.opcode = .conv := by
      cases typed <;>
      · simp only [Counter.countDown, placeFrom, List.cons_append, List.nil_append, List.dropLast,
          ↓reduceIte, Bool.false_eq_true, List.mem_cons, List.not_mem_nil, or_false] at member
        rcases member with rfl | more
        · exact .inl ⟨_, rfl⟩
        · exact .inr (by grind [counter.subtracts, counter.copiesBack, counter.converts])
    rcases known with ⟨place, rfl⟩ | known
    · exact isStraight_constant (one place)
    · exact isStraight_counter known
  · cases typed <;>
      simp [endsInDecrement, Counter.countDown, placeFrom, one, counter.subtracts, counter.copiesBack,
        counter.converts]

end

/-! Whole programs -/

namespace Cutter

variable {typed : Bool} {loops : List PlacedLoop} {finish : Nat} {cutter : Cutter} {loop : PlacedLoop}

theorem run_cons (cutter : Cutter) (piece : Piece) (rest : List Piece) :
    cutter.run (piece :: rest) = (cutter.step piece).run rest := rfl

theorem run_nil (cutter : Cutter) : cutter.run [] = cutter := rfl

theorem isStep_placeFrom {address : Nat} {instructions : List Instruction}
    (straight : ∀ inst ∈ instructions, IsStraight inst) :
    ∀ inst ∈ placeFrom address instructions, IsStep finish inst := by
  intro inst member
  obtain ⟨_, _, old, among, same⟩ := mem_placeFrom member
  obtain ⟨noBranch, noLabel, noReturn⟩ := straight old among
  rw [same]
  exact ⟨noBranch, noLabel, fun returns => absurd (noReturn.symm.trans returns) Bool.false_ne_true⟩

section

variable (good : cutter.Good typed loops finish) (kind : LoopKind) (member : loop ∈ loops)
  (shape : loop.shape = kind.shape)

include good kind member shape

theorem Good.gate (start : loop.start = cutter.place + kind.gateSize) :
    (cutter.run (kind.gate loop)).Good typed loops finish ∧
      (cutter.run (kind.gate loop)).place = loop.start ∧
      (cutter.run (kind.gate loop)).start = loop.start ∧
      ((branchOf loop .prelude).isSome = true → (cutter.run (kind.gate loop)).Has loop .prelude) := by
  cases kind with
  | whileLoop condition | doUntil condition =>
    have here : loop.start = cutter.place := start
    obtain ⟨goodNext, place, begins, _⟩ := good.label (.inl ⟨loop, member, .inl here.symm⟩)
    exact ⟨goodNext, place.trans here.symm, begins.trans here.symm,
      fun has => absurd has (by simp [branchOf, shape, LoopKind.shape])⟩
  | repeatLoop count counter =>
    rw [LoopKind.gate, run_cons, run_cons, run_nil]
    have stop : (cutter.step (.steps count.steps)).place + extent (counter.test loop.stop) = loop.start := by
      rw [start, ← LoopKind.extent_gate _ loop]
      simp [LoopKind.gate, Piece.instructions, step, Nat.add_assoc]
    refine ⟨(good.steps (isStep_placeFrom count.straight)).scaffold member
      (isScaffold_test _ counter shape) ?_ (by simp), stop, stop, fun _ => has_scaffold _ _ _ _ _⟩
    simp only [BlockPlan.Holds, opened, Option.map_some, Option.getD_some, extent_placeFrom]
    exact stop
  | withLoop =>
    have stop : cutter.place + extent [branch .pushenv loop.turn] = loop.start := by rw [start]; rfl
    refine ⟨good.scaffold member (isScaffold_branch _ ?_ ?_) ?_ (by simp), stop, stop,
      fun _ => has_scaffold _ _ _ _ _⟩
    · simp [shape, LoopKind.shape]
    · simp [branchOf, shape, LoopKind.shape]
    · simp only [BlockPlan.Holds, opened, Option.map_some, Option.getD_some, extent_placeFrom]
      exact stop

theorem Good.entry (place : cutter.place = loop.start) (start : cutter.start = loop.start) :
    (cutter.run (kind.entry loop)).Good typed loops finish ∧
      (cutter.run (kind.entry loop)).place = loop.start + kind.entrySize ∧
      ((branchOf loop .condition).isSome = true → (cutter.run (kind.entry loop)).Has loop .condition) := by
  cases kind with
  | whileLoop condition =>
    rw [LoopKind.entry, run_cons, run_cons, run_nil]
    refine ⟨(good.steps (isStep_placeFrom condition.straight)).scaffold member
      (isScaffold_branch _ ?_ ?_) start (by simp), ?_, fun _ => has_scaffold _ _ _ _ _⟩
    · simp [shape, LoopKind.shape]
    · simp [branchOf, shape, LoopKind.shape]
    · simp [step, place, LoopKind.entrySize, LoopKind.entry, Piece.instructions, Nat.add_assoc]
  | doUntil _ | repeatLoop _ _ | withLoop =>
    exact ⟨good, place, fun has => absurd has (by simp [branchOf, shape, LoopKind.shape])⟩

theorem Good.check (stop : loop.stop = cutter.place + kind.checkSize + kind.turnSize typed) :
    (cutter.run kind.check).Good typed loops finish ∧
      (cutter.run kind.check).place = cutter.place + kind.checkSize ∧
      (loop.shape = .withLoop → (cutter.run kind.check).start = loop.turn ∧
        (cutter.run kind.check).lead = none ∧ (cutter.run kind.check).middle = []) := by
  cases kind with
  | withLoop =>
    have here : cutter.place = loop.turn := by
      rw [PlacedLoop.turn, stop]
      rfl
    obtain ⟨goodNext, place, begins, lead, middle⟩ := good.label (.inl ⟨loop, member, .inr ⟨shape, here⟩⟩)
    exact ⟨goodNext, place, fun _ => ⟨begins.trans here, lead, middle⟩⟩
  | doUntil condition =>
    refine ⟨good.steps (isStep_placeFrom condition.straight), ?_,
      fun other => absurd other (by simp [shape, LoopKind.shape])⟩
    simp [LoopKind.check, LoopKind.checkSize, run_cons, run_nil, step, Piece.instructions]
  | whileLoop _ | repeatLoop _ _ =>
    exact ⟨good, rfl, fun other => absurd other (by simp [shape, LoopKind.shape])⟩

end

theorem isScaffold_turning (kind : LoopKind) (shape : loop.shape = kind.shape)
    (address : Nat) : IsScaffold typed loop .tail (placeFrom address (kind.turning typed loop.start)) := by
  cases kind with
  | repeatLoop count counter => exact isScaffold_countDown address counter shape
  | whileLoop _ | doUntil _ | withLoop =>
    exact isScaffold_branch address (by simp [shape, LoopKind.shape])
      (by simp [branchOf, shape, LoopKind.shape])

theorem Good.closing (good : cutter.Good typed loops finish) (kind : LoopKind)
    (member : loop ∈ loops) (shape : loop.shape = kind.shape) (start : loop.start ≤ cutter.start)
    (stop : loop.stop = cutter.place + kind.checkSize + kind.turnSize typed) :
    (cutter.run (kind.closing typed loop)).Good typed loops finish ∧
      (cutter.run (kind.closing typed loop)).place = loop.stop + kind.leaveSize ∧
      (cutter.run (kind.closing typed loop)).Has loop .tail ∧
      (loop.shape = .repeatLoop →
        ∃ discard, (cutter.run (kind.closing typed loop)).lead = some (loop, discard)) := by
  obtain ⟨goodNext, place, bare⟩ := good.check kind member shape stop
  have start := Nat.le_trans start (good.extend kind.check).start
  rw [LoopKind.closing, run_append, run_cons, run_nil]
  have stop : (cutter.run kind.check).place + extent (kind.turning typed loop.start) = loop.stop := by
    rw [place, stop, LoopKind.extent_turning]
  refine ⟨goodNext.scaffold member (isScaffold_turning kind shape _) ?_ fun inst isLeaving => ?_, ?_,
    has_scaffold _ _ _ _ _, fun isRepeat => ?_⟩
  · refine ⟨?_, start, bare⟩
    simp only [opened, Option.map_some, Option.getD_some, extent_placeFrom]
    exact stop
  · cases kind with
    | repeatLoop count counter =>
      exact ⟨shape, stop, Option.some.inj isLeaving ▸ counter.discards⟩
    | whileLoop _ | doUntil _ | withLoop => exact absurd isLeaving (by simp [LoopKind.leaving])
  · simp only [step, stop]
    rfl
  · cases kind with
    | repeatLoop count counter => exact ⟨_, rfl⟩
    | whileLoop _ | doUntil _ | withLoop => exact absurd isRepeat (by simp [shape, LoopKind.shape])

/-- Reading a program keeps what is known of the blocks, and makes those that its loops need. -/
theorem Good.program (program : Program) (good : cutter.Good typed loops finish)
    (among : ∀ loop ∈ program.loops typed cutter.place, loop ∈ loops) :
    (cutter.run (program.pieces typed cutter.place)).Good typed loops finish ∧
      (cutter.run (program.pieces typed cutter.place)).place = cutter.place + program.size typed ∧
      ∀ loop ∈ program.loops typed cutter.place,
        Built loop (cutter.run (program.pieces typed cutter.place)) := by
  induction program generalizing cutter with
  | done => exact ⟨good, rfl, List.forall_mem_nil _⟩
  | run steps rest ih =>
    obtain ⟨goodNext, place, built⟩ := ih (good.steps (isStep_placeFrom steps.straight)) among
    exact ⟨goodNext, place.trans (Nat.add_assoc _ _ _), built⟩
  | loop kind body rest bodyIH restIH =>
    rw [Program.loops] at among ⊢
    rw [Program.pieces]
    have isStart : (kind.place typed cutter.place (body.size typed)).start = cutter.place + kind.gateSize := rfl
    have isStop : (kind.place typed cutter.place (body.size typed)).stop =
      cutter.place + kind.gateSize + kind.entrySize + body.size typed + kind.checkSize +
        kind.turnSize typed := rfl
    have shape : (kind.place typed cutter.place (body.size typed)).shape = kind.shape := rfl
    generalize kind.place typed cutter.place (body.size typed) = loop at among isStart isStop shape ⊢
    have member : loop ∈ loops := among loop (.head _)
    -- The head, the body and the way back are read one after another.
    obtain ⟨goodHead, headPlace, headStart, gated⟩ := good.gate kind member shape isStart
    obtain ⟨goodEntry, entryPlace, conditioned⟩ := goodHead.entry kind member shape headPlace headStart
    have toEntry := goodHead.extend (kind.entry loop)
    simp only [run_append]
    generalize (cutter.run (kind.gate loop)).run (kind.entry loop) = entered at *
    rw [← entryPlace] at among ⊢
    obtain ⟨goodBody, bodyPlace, bodyBuilt⟩ := bodyIH goodEntry fun inner isInner =>
      among inner (List.mem_append_left _ (.tail _ isInner))
    have toBody := goodEntry.extend (body.pieces typed entered.place)
    generalize entered.run (body.pieces typed entered.place) = read at *
    obtain ⟨goodTurn, turnPlace, turns, leads⟩ := goodBody.closing kind member shape
      (headStart ▸ (toEntry.trans toBody).start) (by omega)
    have toTurn := goodBody.extend (kind.closing typed loop)
    generalize read.run (kind.closing typed loop) = turned at *
    rw [← turnPlace] at among ⊢
    obtain ⟨goodRest, restPlace, restBuilt⟩ := restIH goodTurn fun later isLater =>
      among later (List.mem_append_right _ isLater)
    have toRest := goodTurn.extend (rest.pieces typed turned.place)
    generalize turned.run (rest.pieces typed turned.place) = final at *
    refine ⟨goodRest, by rw [Program.size]; omega, fun other isOther => ?_⟩
    rcases List.mem_append.mp isOther with early | later
    · rcases List.mem_cons.mp early with rfl | inner
      · have toFinal := toTurn.trans toRest
        refine ⟨fun role has => ?_, ?_, fun isRepeat => ?_⟩
        · cases role with
          | prelude => exact (gated has).extend (toEntry.trans (toBody.trans toFinal))
          | condition => exact (conditioned has).extend (toBody.trans toFinal)
          | tail => exact turns.extend toRest
        · obtain ⟨block, among, start, _⟩ := (toEntry.trans (toBody.trans toFinal)).first
          exact ⟨block, among, start.trans headStart⟩
        · obtain ⟨discard, isLead⟩ := leads isRepeat
          obtain ⟨block, among, _, lead⟩ := toRest.first
          exact ⟨block, among, discard, lead.trans isLead⟩
      · exact (bodyBuilt other inner).extend (toTurn.trans toRest)
    · exact restBuilt other later

end Cutter

end Structuring.LoopNest
