import Structuring.Proofs.Branches
import Structuring.Proofs.Clip

/-! Where sentinels come from.

Each of them stands in the place of a jump in the code, and where that jump went tells why it is a
break, a continue or a return. A session in which every sentinel has such a reason is traced, and
edits keep it so if they give a reason for the sentinels that they make.
-/

namespace Structuring

open Bytecode Recovery FlowGraph

namespace FlowGraph

variable {rights : Rights} {graph next : FlowGraph} {id loop ref old new : NodeId} {address : Nat} {kind : Kind}

/-! The first loop around a node -/

/-- The first loop on the way up from a node, in the same function. -/
inductive FirstLoop (graph : FlowGraph) (loop : NodeId) : NodeId → Prop
  | here {id : NodeId} (inside : (graph.node id).parent = some loop)
      (isLoop : ∃ parts, (graph.node loop).kind = .loop parts) : FirstLoop graph loop id
  | up {id outer : NodeId} (inside : (graph.node id).parent = some outer) (encloser : graph.Encloser outer)
      (apart : ∀ parts, (graph.node outer).kind ≠ .loop parts) (above : FirstLoop graph loop outer) :
      FirstLoop graph loop id

theorem FirstLoop.isLoop (first : graph.FirstLoop loop id) : ∃ parts, (graph.node loop).kind = .loop parts := by
  induction first with
  | here _ isLoop => exact isLoop
  | up _ _ _ _ ih => exact ih

theorem GraphEdit.firstLoop (edit : GraphEdit rights graph next) (settled : ¬rights.owns)
    (shaped : ¬rights.reshapes) (bound : id < graph.size) (proper : (graph.node id).kind ≠ .sentinel .empty)
    (first : graph.FirstLoop loop id) : next.FirstLoop loop id := by
  have grows := edit.maintains.grows
  have kinds {id : NodeId} (owner : graph.Owner id) := (grows.nodes id owner.lt).kind
  -- A loop takes nodes in from fragments only, so it does not come below another structure.
  have plain {owner : NodeId} {level : Option NodeId} (encloser : graph.Encloser owner)
      (inside : ¬∃ fragment parts, level = some fragment ∧ (graph.node fragment).kind = .fragment parts)
      (grounded : rights.reshapes ∨ graph.Grounded owner level) (parts : Loop) :
      (next.node owner).kind ≠ .loop parts := by
    intro isLoop
    obtain ⟨_, was⟩ := (kinds encloser.owner).loop_iff.mp ⟨parts, isLoop⟩
    exact inside (grounded.resolve_left shaped _ was)
  induction first with
  | @here id inside isLoop =>
    obtain ⟨parts, isKind⟩ := isLoop
    have still := (kinds (.of_kind isKind rfl)).loop_iff.mpr ⟨parts, isKind⟩
    rcases edit.parent_cases bound proper fun free => absurd free settled with
      same | ⟨_, owner, taken, above, encloser, grounded⟩
    · exact .here (same.trans inside) still
    · refine .up taken (grows.encloser encloser) (plain encloser ?_ grounded) (.here (above.trans inside) still)
      rintro ⟨fragment, _, isLevel, isFragment⟩
      obtain rfl := Option.some.inj (inside.symm.trans isLevel)
      exact absurd (isKind.symm.trans isFragment) (by simp)
  | @up id outer inside between apart _ ih =>
    have above := ih between.owner.lt between.owner.ne_empty
    have apart (parts : Loop) : (next.node outer).kind ≠ .loop parts := by
      intro isLoop
      obtain ⟨_, was⟩ := (kinds between.owner).loop_iff.mp ⟨parts, isLoop⟩
      exact apart _ was
    rcases edit.parent_cases bound proper fun free => absurd free settled with
      same | ⟨_, owner, taken, level, encloser, grounded⟩
    · exact .up (same.trans inside) (grows.encloser between) apart above
    · refine .up taken (grows.encloser encloser) (plain encloser ?_ grounded)
        (.up (level.trans inside) (grows.encloser between) apart above)
      rintro ⟨fragment, parts, isLevel, isFragment⟩
      obtain rfl := Option.some.inj (inside.symm.trans isLevel)
      exact between.not_fragment ⟨parts, isFragment⟩

/-! Blocks that drop environments -/

def Kind.breakBlock? : Kind → Option NodeId
  | .loop { shape := .withLoop breakBlock, .. } => breakBlock
  | _ => none

theorem Kind.breakBlock?_replaceChild (kind : Kind) (old new : NodeId) :
    (kind.replaceChild old new).breakBlock? = kind.breakBlock?.map fun id => if id = old then new else id := by
  cases kind with
  | loop parts =>
    obtain ⟨shape, head, tail, body, after⟩ := parts
    cases shape <;> rfl
  | _ => rfl

theorem Kind.isLoop_of_breakBlock? (has : kind.breakBlock? = some ref) : ∃ parts, kind = .loop parts := by
  cases kind with
  | loop parts => exact ⟨parts, rfl⟩
  | _ => cases has

theorem Kind.Becomes.isSome_breakBlock? {first second : Kind} (becomes : first.Becomes second) :
    second.breakBlock?.isSome = first.breakBlock?.isSome := by
  cases becomes with
  | loop shape =>
    rename_i before after
    obtain ⟨before, _⟩ := before
    obtain ⟨after, _⟩ := after
    cases shape with
    | withLoop same => exact same
    | _ => rfl
  | _ => rfl

/-- What stands where the block that drops an environment was. If a switch began with that block, it has
taken its place. -/
def Stands (graph : FlowGraph) (ref : NodeId) (address : Nat) : Prop :=
  ((graph.node ref).instructions = [] ∧ (graph.node ref).start = address) ∨
    ∃ parts, (graph.node ref).kind = .switch parts

theorem Stands.later (stands : graph.Stands ref address) (grows : Grows graph next) (bound : ref < graph.size) :
    next.Stands ref address := by
  have becomes := grows.nodes ref bound
  rcases stands with ⟨empty, start⟩ | isSwitch
  · refine .inl ⟨List.eq_nil_iff_forall_not_mem.mpr fun inst member => ?_, becomes.start.trans start⟩
    exact List.not_mem_nil (empty ▸ becomes.instructions.subset inst member)
  · exact .inr (becomes.kind.switch_iff.mpr isSwitch)

theorem breakBlock?_mapInstructions (f : List Instruction → List Instruction) (other : NodeId) :
    ((graph.mapInstructions id f).node other).kind.breakBlock? = (graph.node other).kind.breakBlock? := by
  refine field_modify (·.kind.breakBlock?) _ (fun node => ?_) other
  obtain ⟨start, stop, predecessors, successors, parent, kind⟩ := node
  cases kind <;> rfl

theorem breakBlock?_substitute (has : (graph.node loop).kind.breakBlock? = some ref) (apart : ref ≠ old) :
    ((graph.substitute old new).node loop).kind.breakBlock? = some ref := by
  have moved : ((graph.movePredecessors old new).node loop).kind.breakBlock? = some ref := by
    rw [(sameCores_movePredecessors graph old new).kind, has]
  unfold substitute
  dsimp only
  split
  · rw [mapKind, node_modify]
    split
    · rw [Kind.breakBlock?_replaceChild, moved, Option.map_some, if_neg apart]
    · exact moved
  · exact moved

theorem breakBlock?_replaceJump {jump : Instruction} {sentinel : Sentinel} {block : NodeId}
    (last : (graph.node block).last? = some jump) (has : (graph.node loop).kind.breakBlock? = some ref)
    (stands : graph.Stands ref address) :
    ((graph.replaceJump block sentinel).1.node loop).kind.breakBlock? = some ref := by
  have apart : ref ≠ block := by
    rintro rfl
    rcases stands with ⟨empty, _⟩ | ⟨parts, isSwitch⟩
    · rw [Node.last?, empty] at last
      cases last
    · have isBlock := Node.isBlock_of_last? last
      rw [isSwitch] at isBlock
      cases isBlock
  have cut : (((graph.popInstruction block).clearSuccessors block).node loop).kind.breakBlock? = some ref := by
    rw [(sameCores_clearSuccessors _ block).kind]
    exact (breakBlock?_mapInstructions _ loop).trans has
  have bound : loop < ((graph.popInstruction block).clearSuccessors block).size := by
    obtain ⟨parts, isLoop⟩ := Kind.isLoop_of_breakBlock? cut
    exact Owner.lt (.of_kind isLoop rfl)
  unfold replaceJump
  rw [last]
  dsimp only
  generalize (graph.popInstruction block).clearSuccessors block = next at cut bound
  split
  · exact cut
  · have marked : ((next.addNode (.sentinel sentinel) jump.address jump.nextAddress
        (next.node block).parent).node loop).kind.breakBlock? = some ref := by
      rw [node_addNode, if_neg (Nat.ne_of_lt bound), cut]
    split
    · exact breakBlock?_substitute marked apart
    · rw [(sameCores_addEdge _ _).kind, marked]

/-- A loop keeps what stands for the block that drops its environment. -/
theorem GraphEdit.stands (edit : GraphEdit rights graph next) (settled : ¬rights.owns) (shaped : ¬rights.reshapes)
    (has : (graph.node loop).kind.breakBlock? = some ref) (stands : graph.Stands ref address)
    (bound : ref < graph.size) :
    ∃ ref, (next.node loop).kind.breakBlock? = some ref ∧ next.Stands ref address := by
  have grows := edit.maintains.grows
  have later := stands.later grows bound
  obtain ⟨parts, isLoop⟩ := Kind.isLoop_of_breakBlock? has
  have loopBound : loop < graph.size := Owner.lt (.of_kind isLoop rfl)
  have kept (same : (next.node loop).kind.breakBlock? = (graph.node loop).kind.breakBlock?) :
      ∃ ref, (next.node loop).kind.breakBlock? = some ref ∧ next.Stands ref address :=
    ⟨ref, same.trans has, later⟩
  cases edit with
  | addNode kind start stop parent _ _ _ =>
    exact kept (by rw [node_addNode, if_neg (Nat.ne_of_lt loopBound)])
  | addFragment name start stop parent _ _ =>
    exact kept (by rw [node_addNode, if_neg (Nat.ne_of_lt loopBound)])
  | relink _ same _ => exact kept (by rw [same.kind])
  | own _ _ free _ _ => exact absurd free settled
  | place id owner _ _ =>
    exact kept (field_modify (·.kind.breakBlock?) ({ · with parent := some owner }) (fun _ => rfl) loop)
  | shorten id f _ => exact kept (breakBlock?_mapInstructions f loop)
  | mark block jump sentinel last _ => exact ⟨ref, breakBlock?_replaceJump last has stands, later⟩
  | absorb owner level start stop _ _ _ _ =>
    refine kept ?_
    rw [node_absorb]
    split <;> rfl
  | fill id kind _ becomes _ apart =>
    refine kept ?_
    rw [mapKind, node_modify]
    split
    · next here =>
      rw [here.1, isLoop] at becomes
      obtain ⟨_, isKind⟩ := becomes.loop_iff.mpr ⟨parts, rfl⟩
      exact absurd isKind (apart.resolve_left shaped _)
    · rfl
  | rename id old new newBound replaces =>
    have slot : ((graph.mapKind id (·.replaceChild old new)).node loop).kind.breakBlock? =
        if id = loop then some (if ref = old then new else ref) else some ref := by
      rw [mapKind, node_modify]
      by_cases here : id = loop
      · rw [if_pos ⟨here, loopBound⟩, if_pos here, Kind.breakBlock?_replaceChild, has]
        rfl
      · rw [if_neg fun both => here both.1, if_neg here, has]
    by_cases renamed : id = loop ∧ ref = old
    · obtain ⟨rfl, rfl⟩ := renamed
      have inherits : graph.Stands new address := by
        rcases replaces.resolve_left shaped parts isLoop with isSwitch | ⟨apart, start, leaf⟩
        · exact .inr isSwitch
        · rcases stands with ⟨_, was⟩ | ⟨switch, isSwitch⟩
          · exact .inl ⟨Node.instructions_of_not_isBlock leaf, start.trans was⟩
          · exact absurd isSwitch (apart switch)
      refine ⟨new, by rw [slot, if_pos rfl, if_pos rfl], inherits.later grows newBound⟩
    · refine ⟨ref, ?_, later⟩
      rw [slot]
      split
      · next here => rw [if_neg fun same => renamed ⟨here, same⟩]
      · rfl

end FlowGraph

namespace Recovery


variable {rights : Rights} {source : Source} {session next : Session} {graph : FlowGraph}
  {fragment block id after drop tail loop ref : NodeId} {which : Sentinel} {start stop target address : Nat}

/-- An instruction of the code in the range of a node. -/
structure Holds (source : Source) (node : Node) (inst : Instruction) : Prop where
  member : inst ∈ source.code.instructions
  start : node.start ≤ inst.address
  stop : inst.address < node.stop

theorem Holds.later {node after : Node} {inst : Instruction} (holds : Holds source node inst)
    (becomes : node.Becomes after) : Holds source after inst :=
  ⟨holds.member, becomes.start ▸ holds.start, becomes.stop ▸ holds.stop⟩

/-- A block starts in the range of a structure. -/
def Surrounds (graph : FlowGraph) (structured block : NodeId) : Prop :=
  (graph.node block).startsWithin (graph.node structured).start (graph.node structured).stop = true

/-- A block that drops an environment, after a tail that goes back to `start` and a jump to
`stop`. -/
structure DropsAfter (source : Source) (context : Context) (start stop : Nat) (tail drop : NodeId) :
    Prop where
  layout : ∃ jump, context.nextBlock? tail = some jump ∧ context.nextBlock? jump = some drop ∧
    (∃ inst, Holds source (context.graph.node tail) inst ∧ inst.targetOf? .popenv = some start) ∧
    ∃ inst, Holds source (context.graph.node jump) inst ∧ inst.targetOf? .b = some stop
  drops : ∃ inst, Holds source (context.graph.node drop) inst ∧ inst.opcode = .popenv ∧ inst.operand = .drop

/-- A loop that a jump from a block was meant for. It is the first loop around the sentinel that is
there now, unless that one overlaps it: then it does not have the block in its range, or has the
target there too. -/
structure Meant (graph : FlowGraph) (block id : NodeId) (target : Nat) (loop : NodeId) : Prop where
  isLoop : ∃ parts, (graph.node loop).kind = .loop parts
  inside : Surrounds graph loop block
  first : ∃ first, graph.FirstLoop first id ∧ (first = loop ∨ ¬Surrounds graph first block ∨
    (graph.node first).start ≤ target ∧ target < (graph.node first).stop)

/-- The last block of a loop. Only a jump over the block that drops an environment may come between
it and the end of the loop. -/
def EndsLoop (source : Source) (context : Context) (loop tail : NodeId) : Prop :=
  (context.graph.node tail).stop = (context.graph.node loop).stop ∨
    ∃ drop, (context.graph.node loop).kind.breakBlock?.isSome = true ∧ DropsAfter source context
      (context.graph.node loop).start (context.graph.node loop).stop tail drop

/-- Why a jump to an address, from a block of a fragment, means the same as a sentinel. -/
inductive Reason (source : Source) (context : Context) (fragment block id : NodeId) (target : Nat) :
    Sentinel → Prop
  | loopEnd {loop : NodeId} (meant : Meant context.graph block id target loop)
      (stops : (context.graph.node loop).stop = target) : Reason source context fragment block id target .breaks
  | environmentDrop {loop tail drop breakBlock : NodeId} (meant : Meant context.graph block id target loop)
      (drops : DropsAfter source context (context.graph.node loop).start (context.graph.node loop).stop tail drop)
      (starts : (context.graph.node drop).start = target)
      (has : (context.graph.node loop).kind.breakBlock? = some breakBlock)
      (stands : context.graph.Stands breakBlock target) : Reason source context fragment block id target .breaks
  | loopStart {loop : NodeId} (meant : Meant context.graph block id target loop)
      (starts : (context.graph.node loop).start = target) : Reason source context fragment block id target .continues
  | loopTail {loop tail : NodeId} {inst : Instruction} (meant : Meant context.graph block id target loop)
      (member : tail ∈ fragmentBlocks context.graph fragment) (starts : (context.graph.node tail).start = target)
      (holds : Holds source (context.graph.node tail) inst)
      (back : inst.branchTarget? = some (context.graph.node loop).start) (ends : EndsLoop source context loop tail) :
      Reason source context fragment block id target .continues
  | functionEnd (stops : (context.graph.node fragment).stop = target) :
      Reason source context fragment block id target .returns
  | otherFunction
      (elsewhere : ∀ other ∈ fragmentBlocks context.graph fragment, (context.graph.node other).start ≠ target) :
      Reason source context fragment block id target .returns

/-- A jump to the end of a switch that is located and not yet in the graph. -/
def LeavesLocated (graph : FlowGraph) (claims : Claims) (block : NodeId) (target : Nat) : Prop :=
  ∃ location ∈ claims.switches, location.contains (graph.node block).start = true ∧ location.stop = target

/-- A node in the place of the jump to an address in a block of a fragment. -/
structure MadeFrom (source : Source) (graph : FlowGraph) (node : Node) (fragment block : NodeId)
    (jump : Instruction) (target : Nat) : Prop where
  member : block ∈ fragmentBlocks graph fragment
  holds : Holds source (graph.node block) jump
  jumps : jump.targetOf? .b = some target
  start : node.start = jump.address
  stop : node.stop = jump.nextAddress

structure Explained (source : Source) (context : Context) (claims : Claims) (id : NodeId) (which : Sentinel)
    (fragment block : NodeId) (jump : Instruction) (target : Nat) : Prop where
  made : MadeFrom source context.graph (context.graph.node id) fragment block jump target
  reason : Reason source context fragment block id target which ∨
    which = .breaks ∧ LeavesLocated context.graph claims block target

def HoldsCode (source : Source) (graph : FlowGraph) : Prop :=
  ∀ id, ∀ inst ∈ (graph.node id).instructions, Holds source (graph.node id) inst

/-- A session whose blocks hold code of the entry, and whose sentinels all have a reason. -/
structure Traced (source : Source) (session : Session) : Prop where
  code : HoldsCode source session.graph
  sentinels : ∀ id which, (session.graph.node id).kind = .sentinel which →
    which ≠ .empty → ∃ fragment block jump target,
      Explained source session.context session.claims id which fragment block jump target

theorem Traced.of_same (traced : Traced source session) (context : next.context = session.context)
    (claims : next.claims = session.claims) : Traced source next := by
  obtain ⟨code, sentinels⟩ := traced
  rw [← context] at code
  rw [← context, ← claims] at sentinels
  exact ⟨code, sentinels⟩

/-! Reasons over time -/

theorem Edits.firstLoop (edits : Edits rights session next) (settled : ¬rights.owns) (whole : ¬rights.cuts)
    (shaped : ¬rights.reshapes) (bound : id < session.graph.size)
    (proper : (session.graph.node id).kind ≠ .sentinel .empty)
    (first : session.graph.FirstLoop loop id) : next.graph.FirstLoop loop id := by
  induction edits with
  | refl => exact first
  | tail before edit ih =>
    cases edit with
    | graph graph edit =>
      exact edit.firstLoop settled shaped (Edits.lt before bound) (Edits.proper before bound proper) ih
    | block parts start stop free => exact absurd free whole
    | record context graph _ _ _ _ => rw [graph]; exact ih
    | fragments _ _ _ _ _ _ | claims _ _ _ | tell _ => exact ih

theorem Edits.stands (edits : Edits rights session next) (settled : ¬rights.owns) (whole : ¬rights.cuts)
    (shaped : ¬rights.reshapes) (sound : session.Sound)
    (has : (session.graph.node loop).kind.breakBlock? = some ref) (stands : session.graph.Stands ref address) :
    ∃ ref, (next.graph.node loop).kind.breakBlock? = some ref ∧ next.graph.Stands ref address := by
  induction edits with
  | refl => exact ⟨ref, has, stands⟩
  | @tail middle final before edit ih =>
    obtain ⟨ref, has, stands⟩ := ih
    cases edit with
    | graph graph edit =>
      refine edit.stands settled shaped has stands ((Edits.sound before sound).graph.slots loop ref ?_)
      obtain ⟨⟨shape, _⟩, isLoop⟩ := Kind.isLoop_of_breakBlock? has
      rw [isLoop] at has ⊢
      cases shape <;> simp_all [Kind.breakBlock?, Kind.references, LoopShape.references]
    | block parts start stop free => exact absurd free whole
    | record context graph _ _ _ _ => rw [graph]; exact ⟨ref, has, stands⟩
    | fragments _ _ _ _ _ _ | claims _ _ _ | tell _ => exact ⟨ref, has, stands⟩

theorem surrounds_iff {after : FlowGraph} {structured : NodeId} (grows : Grows graph after)
    (outer : structured < graph.size) (inner : block < graph.size) :
    Surrounds after structured block ↔ Surrounds graph structured block := by
  have outer := grows.nodes structured outer
  rw [Surrounds, Node.startsWithin, (grows.nodes block inner).start, outer.start, outer.stop]
  exact Iff.rfl

theorem isBlock_of_nextBlock? {context : Context} (found : context.nextBlock? block = some after) :
    (context.graph.node block).kind.isBlock = true := by
  obtain ⟨parts, isBlock, _⟩ := Option.bind_eq_some_iff.mp found
  unfold Node.block? at isBlock
  split at isBlock
  · next kind => rw [kind]; rfl
  · cases isBlock

theorem Session.Sound.isBlock_nextBlock? (sound : session.Sound)
    (found : session.context.nextBlock? block = some after) :
    (session.graph.node after).kind.isBlock = true := by
  obtain ⟨_, _, listed⟩ := Option.bind_eq_some_iff.mp found
  exact (sound.blocks after).mp (List.mem_of_getElem? listed)

theorem DropsAfter.lt (drops : DropsAfter source session.context start stop tail drop) (sound : session.Sound) :
    drop < session.graph.size := by
  obtain ⟨_, _, second, _⟩ := drops.layout
  exact lt_size_of_isBlock (sound.isBlock_nextBlock? second)

theorem Edits.nextBlock?_eq (edits : Edits rights session next) (whole : ¬rights.cuts)
    (isBlock : (session.graph.node block).kind.isBlock = true) :
    next.context.nextBlock? block = session.context.nextBlock? block := by
  have becomes := (edits.grows.nodes block (lt_size_of_isBlock isBlock)).kind
  unfold Context.nextBlock? Node.block?
  rw [edits.blocks_eq whole]
  generalize (session.graph.node block).kind = before, (next.graph.node block).kind = later at isBlock becomes
  cases becomes with
  | block _ => rfl
  | _ => cases isBlock

theorem DropsAfter.later (drops : DropsAfter source session.context start stop tail drop) (sound : session.Sound)
    (edits : Edits rights session next) (whole : ¬rights.cuts) :
    DropsAfter source next.context start stop tail drop := by
  have becomes := edits.grows.nodes drop (drops.lt sound)
  obtain ⟨⟨jump, first, second, ⟨back, heldBack, goes⟩, across, heldAcross, leaves⟩, inst, held, isDrop⟩ := drops
  have still {id after : NodeId} (found : session.context.nextBlock? id = some after) :
      next.context.nextBlock? id = some after ∧ (session.graph.node id).Becomes (next.graph.node id) := by
    have isBlock := isBlock_of_nextBlock? found
    exact ⟨(edits.nextBlock?_eq whole isBlock).trans found, edits.grows.nodes id (lt_size_of_isBlock isBlock)⟩
  exact ⟨⟨jump, (still first).1, (still second).1, ⟨back, heldBack.later (still first).2, goes⟩, across,
    heldAcross.later (still second).2, leaves⟩, inst, held.later becomes, isDrop⟩

theorem Meant.later (meant : Meant session.graph block id target loop) (edits : Edits rights session next)
    (whole : ¬rights.cuts) (settled : ¬rights.owns) (shaped : ¬rights.reshapes) (inner : block < session.graph.size)
    (bound : id < session.graph.size) (proper : (session.graph.node id).kind ≠ .sentinel .empty) :
    Meant next.graph block id target loop := by
  have grows := edits.grows
  have loopBound {loop : NodeId} (isLoop : ∃ parts, (session.graph.node loop).kind = .loop parts) :
      loop < session.graph.size := by
    obtain ⟨_, isKind⟩ := isLoop
    exact Owner.lt (.of_kind isKind rfl)
  obtain ⟨isLoop, inside, first, isFirst, known⟩ := meant
  have outer := loopBound isLoop
  have firstBound := loopBound isFirst.isLoop
  refine ⟨(grows.nodes loop outer).kind.loop_iff.mpr isLoop, (surrounds_iff grows outer inner).mpr inside, first,
    edits.firstLoop settled whole shaped bound proper isFirst, ?_⟩
  rwa [surrounds_iff grows firstBound inner, (grows.nodes first firstBound).start, (grows.nodes first firstBound).stop]

theorem EndsLoop.later (ends : EndsLoop source session.context loop tail) (sound : session.Sound)
    (edits : Edits rights session next) (whole : ¬rights.cuts) (outer : loop < session.graph.size)
    (inner : tail < session.graph.size) : EndsLoop source next.context loop tail := by
  have becomes := edits.grows.nodes loop outer
  rw [EndsLoop, becomes.start, becomes.stop, (edits.grows.nodes tail inner).stop]
  refine ends.imp_right fun other => ?_
  obtain ⟨drop, has, drops⟩ := other
  exact ⟨drop, becomes.kind.isSome_breakBlock?.trans has, drops.later sound edits whole⟩

theorem Reason.later (reason : Reason source session.context fragment block id target which)
    (sound : session.Sound) (edits : Edits rights session next) (whole : ¬rights.cuts) (settled : ¬rights.owns)
    (shaped : ¬rights.reshapes) (member : block ∈ fragmentBlocks session.graph fragment) (bound : id < session.graph.size)
    (proper : (session.graph.node id).kind ≠ .sentinel .empty) :
    Reason source next.context fragment block id target which := by
  have grows := edits.grows
  have inner := lt_of_mem_fragmentBlocks sound.graph member
  have sameBlocks := edits.fragmentBlocks_eq settled fragment
  have later {loop : NodeId} (meant : Meant session.graph block id target loop) :
      Meant next.graph block id target loop ∧ (session.graph.node loop).Becomes (next.graph.node loop) := by
    obtain ⟨_, isKind⟩ := meant.isLoop
    exact ⟨meant.later edits whole settled shaped inner bound proper,
      grows.nodes loop (Owner.lt (.of_kind isKind rfl))⟩
  cases reason with
  | loopEnd meant stops =>
    obtain ⟨still, becomes⟩ := later meant
    exact .loopEnd still (becomes.stop.trans stops)
  | environmentDrop meant drops starts has stands =>
    obtain ⟨still, becomes⟩ := later meant
    obtain ⟨ref, has, stands⟩ := edits.stands settled whole shaped sound has stands
    have drops' := drops.later sound edits whole
    rw [← becomes.start, ← becomes.stop] at drops'
    exact .environmentDrop still drops' ((grows.nodes _ (drops.lt sound)).start.trans starts) has stands
  | loopStart meant starts =>
    obtain ⟨still, becomes⟩ := later meant
    exact .loopStart still (becomes.start.trans starts)
  | loopTail meant among starts holds back ends =>
    obtain ⟨still, becomes⟩ := later meant
    obtain ⟨_, isKind⟩ := meant.isLoop
    have tailBound := lt_of_mem_fragmentBlocks sound.graph among
    have tail := grows.nodes _ tailBound
    exact .loopTail still (sameBlocks ▸ among) (tail.start.trans starts) (holds.later tail)
      (back.trans (congrArg some becomes.start.symm))
      (ends.later sound edits whole (Owner.lt (.of_kind isKind rfl)) tailBound)
  | functionEnd stops =>
    have owner := owner_of_mem_fragmentBlocks member
    exact .functionEnd ((grows.nodes fragment owner.lt).stop.trans stops)
  | otherFunction elsewhere =>
    refine .otherFunction fun other among same => ?_
    rw [sameBlocks] at among
    have becomes := grows.nodes other (lt_of_mem_fragmentBlocks sound.graph among)
    exact elsewhere other among (becomes.start.symm.trans same)

/-! Sentinels over time -/

/-- A sentinel was there before, or an edit has put it in the place of a jump. -/
theorem Edits.sentinel_or (edits : Edits rights session next)
    (isSentinel : (next.graph.node id).kind = .sentinel which) (proper : which ≠ .empty) :
    (session.graph.node id).kind = .sentinel which ∨
      ∃ middle block jump, Edits rights session middle ∧
        Marked rights middle.graph (next.graph.node id) block jump which := by
  induction edits with
  | refl => exact .inl isSentinel
  | @tail middle final before edit ih =>
    by_cases inside : id < middle.graph.size
    · have becomes := edit.maintains.grows.nodes id inside
      have kind := becomes.kind
      rw [isSentinel] at kind
      refine (ih kind.eq_sentinel).imp_right ?_
      rintro ⟨first, block, jump, toFirst, marked⟩
      exact ⟨first, block, jump, toFirst, marked.last, marked.marks,
        becomes.start.trans marked.start, becomes.stop.trans marked.stop, isSentinel⟩
    · have outside : middle.graph.size ≤ id := Nat.le_of_not_lt inside
      have gone (same : final.graph.size = middle.graph.size) : False := by
        rw [node_of_size_le (same ▸ outside)] at isSentinel
        cases isSentinel
        exact proper rfl
      cases edit with
      | graph graph edit =>
        rcases edit.fresh outside with plain | ⟨_, _, isFragment⟩ | ⟨block, jump, made, marked⟩
        · exfalso
          change (graph.node id).kind = _ at isSentinel
          rw [isSentinel] at plain
          cases which <;> simp_all [Kind.isPlain]
        · exact absurd (isSentinel.symm.trans isFragment) (by simp)
        · obtain rfl : which = made := by
            simpa using isSentinel.symm.trans marked.kind
          exact .inr ⟨middle, block, jump, before, marked⟩
      | block parts start stop _ =>
        rw [node_addNode] at isSentinel
        split at isSentinel
        · cases isSentinel
        · rw [node_of_size_le outside] at isSentinel
          cases isSentinel
          exact absurd rfl proper
      | record context graph _ _ _ _ => exact (gone (congrArg FlowGraph.size graph)).elim
      | fragments _ _ _ _ _ _ | claims _ _ _ | tell _ => exact (gone rfl).elim

theorem Edits.instructions_eq_nil (edits : Edits rights session next) (whole : ¬rights.cuts)
    (outside : session.graph.size ≤ id) : (next.graph.node id).instructions = [] := by
  refine Node.instructions_of_not_isBlock ((edits.isBlock_eq whole id).trans ?_)
  rw [node_of_size_le outside]
  rfl

theorem HoldsCode.later (code : HoldsCode source session.graph)
    (edits : Edits rights session next) (whole : ¬rights.cuts) : HoldsCode source next.graph := by
  intro id inst member
  by_cases inside : id < session.graph.size
  · have becomes := edits.grows.nodes id inside
    exact (code id inst (becomes.instructions.subset inst member)).later becomes
  · rw [edits.instructions_eq_nil whole (Nat.le_of_not_lt inside)] at member
    cases member

theorem lt_of_sentinel (isSentinel : (graph.node id).kind = .sentinel which) (proper : which ≠ .empty) :
    id < graph.size := by
  refine Nat.lt_of_not_le fun outside => proper ?_
  rw [node_of_size_le outside] at isSentinel
  cases isSentinel
  rfl

theorem MadeFrom.later {jump : Instruction} {node later : Node}
    (made : MadeFrom source session.graph node fragment block jump target) (sound : session.Sound)
    (edits : Edits rights session next) (settled : ¬rights.owns) (start : later.start = node.start)
    (stop : later.stop = node.stop) : MadeFrom source next.graph later fragment block jump target := by
  have bound := lt_of_mem_fragmentBlocks sound.graph made.member
  exact ⟨edits.fragmentBlocks_eq settled fragment ▸ made.member, made.holds.later (edits.grows.nodes block bound),
    made.jumps, start.trans made.start, stop.trans made.stop⟩

/-- Edits keep a session traced, if there is a reason for each sentinel that they make. -/
theorem Traced.later (traced : Traced source session) (sound : session.Sound)
    (edits : Edits rights session next) (whole : ¬rights.cuts) (settled : ¬rights.owns)
    (shaped : ¬rights.reshapes) (switches : session.claims.switches ⊆ next.claims.switches)
    (explain : ∀ id which, session.graph.size ≤ id → (next.graph.node id).kind = .sentinel which →
      which ≠ .empty → ∃ fragment block jump target,
        Explained source next.context next.claims id which fragment block jump target) :
    Traced source next := by
  refine ⟨traced.code.later edits whole, fun id which isSentinel proper => ?_⟩
  by_cases inside : id < session.graph.size
  · have becomes := edits.grows.nodes id inside
    have kind := becomes.kind
    rw [isSentinel] at kind
    have old := kind.eq_sentinel
    obtain ⟨fragment, block, jump, target, made, reason⟩ := traced.sentinels id which old proper
    refine ⟨fragment, block, jump, target, made.later sound edits settled becomes.start becomes.stop, ?_⟩
    rcases reason with reason | ⟨isBreak, location, member, contains, stops⟩
    · refine .inl (reason.later sound edits whole settled shaped made.member inside ?_)
      rw [old]
      exact fun empty => proper (Kind.sentinel.inj empty)
    · have bound := lt_of_mem_fragmentBlocks sound.graph made.member
      refine .inr ⟨isBreak, location, switches member, ?_, stops⟩
      rwa [(edits.grows.nodes block bound).start]
  · exact explain id which (Nat.le_of_not_lt inside) isSentinel proper

theorem Traced.of_marks (traced : Traced source session) (sound : session.Sound)
    (edits : Edits rights session next) (whole : ¬rights.cuts) (settled : ¬rights.owns)
    (shaped : ¬rights.reshapes) (switches : session.claims.switches ⊆ next.claims.switches)
    (explain : ∀ id block jump which, rights.marks block jump which →
      ∃ fragment target, block ∈ fragmentBlocks session.graph fragment ∧ jump.targetOf? .b = some target ∧
        (Reason source next.context fragment block id target which ∨
          which = .breaks ∧ LeavesLocated next.graph next.claims block target)) :
    Traced source next := by
  refine traced.later sound edits whole settled shaped switches fun id which outside isSentinel proper => ?_
  rcases edits.sentinel_or isSentinel proper with old | ⟨middle, block, jump, toMiddle, marked⟩
  · exact absurd (lt_of_sentinel old proper) (Nat.not_lt_of_le outside)
  · obtain ⟨fragment, target, member, jumps, reason⟩ := explain id block jump which marked.marks
    have bound := lt_of_mem_fragmentBlocks sound.graph member
    have among := (toMiddle.grows.nodes block bound).instructions.subset jump (List.mem_of_getLast? marked.last)
    have made : MadeFrom source session.graph (next.graph.node id) fragment block jump target :=
      ⟨member, traced.code block jump among, jumps, marked.start, marked.stop⟩
    exact ⟨fragment, block, jump, target, made.later sound edits settled rfl rfl, reason⟩

def Unmarked (graph : FlowGraph) : Prop :=
  ∀ id which, (graph.node id).kind = .sentinel which → which = .empty

theorem Unmarked.later (unmarked : Unmarked session.graph) (edits : Edits rights session next)
    (none : ∀ block jump which, ¬rights.marks block jump which) : Unmarked next.graph := by
  refine fun id which isSentinel => Decidable.byContradiction fun proper => ?_
  rcases edits.sentinel_or isSentinel proper with old | ⟨_, block, jump, _, marked⟩
  · exact proper (unmarked id which old)
  · exact none block jump which marked.marks

theorem Unmarked.traced (unmarked : Unmarked session.graph)
    (code : HoldsCode source session.graph) : Traced source session :=
  ⟨code, fun id which isSentinel proper => absurd (unmarked id which isSentinel) proper⟩

def Claims.Ordered (claims : Claims) (graph : FlowGraph) : Prop :=
  ∀ location ∈ claims.switches, location.start ≤ (graph.node location.jumpBlock).start

end Recovery

end Structuring
