import Structuring.Proofs.Forest
import Structuring.Proofs.Levels

/-! What structures hold in their slots.

Between structures a slot changes only when a node directly inside is put into it. Where a node in a
slot can be is said here in terms of what it is inside of.
-/

namespace Structuring

open Bytecode Recovery FlowGraph

namespace FlowGraph

/-- The slots of the structures. -/
inductive Slot where
  | entry
  | head
  | tail
  | body
  | after
  | incrementor
  | breakBlock
  | operand
  | condition
  | whenTrue
  | whenFalse
  | otherwise
  | cases
  | labels
  | endCases
  | initializers
  deriving DecidableEq, Repr

/-- Whether what is put into a slot is found by where control flows, wherever that starts. -/
def Slot.isLoose : Slot → Bool
  | .entry | .after | .condition | .labels | .endCases => false
  | _ => true

/-- Whether a slot holds a block even if the block is inside another structure. -/
def Slot.namesBlock : Slot → Bool
  | .incrementor | .breakBlock => true
  | _ => false

def LoopShape.slots : LoopShape → List (Slot × NodeId)
  | .whileLoop _ incrementor => incrementor.toList.map (.incrementor, ·)
  | .withLoop breakBlock => breakBlock.toList.map (.breakBlock, ·)
  | .doUntil | .repeatLoop => []

/-- The slots of a node with what is in them. -/
def Kind.slots : Kind → List (Slot × NodeId)
  | .fragment parts => parts.entry.toList.map (.entry, ·)
  | .loop parts =>
    (.head, parts.head) :: (.tail, parts.tail) :: (.after, parts.after) ::
      (parts.body.toList.map (.body, ·) ++ parts.shape.slots)
  | .chain parts => parts.operands.map (.operand, ·)
  | .conditional parts =>
    (.condition, parts.condition) :: (.whenTrue, parts.whenTrue) :: (.whenFalse, parts.whenFalse) ::
      parts.otherwise.toList.map (.otherwise, ·)
  | .switch parts =>
    (.cases, parts.cases) :: (parts.body.toList.map (.labels, ·) ++ parts.endCases.toList.map (.endCases, ·))
  | .staticInit head => [(.initializers, head)]
  | .block _ | .caseJump | .caseLabel _ | .sentinel _ => []

section

variable {kind : Kind} {slot : Slot} {ref : NodeId}

theorem Kind.isStructure_of_mem_slots (member : (slot, ref) ∈ kind.slots) : kind.isStructure = true := by
  cases kind with
  | block _ | caseJump | caseLabel _ | sentinel _ => cases member
  | _ => rfl

/-- What a structure that is no fragment refers to is what is in its slots. -/
theorem Kind.map_slots (plain : kind.isPlain = true) : kind.slots.map (·.2) = kind.references := by
  cases kind with
  | fragment _ => exact absurd plain (by simp [isPlain])
  | loop parts =>
    obtain ⟨shape, head, tail, body, after⟩ := parts
    cases shape <;> simp [slots, references, LoopShape.slots, LoopShape.references, Function.comp_def]
  | _ => simp [slots, references, Function.comp_def]

theorem Kind.mem_references_of_mem_slots (member : (slot, ref) ∈ kind.slots) : ref ∈ kind.references := by
  cases kind with
  | fragment parts =>
    obtain ⟨_, isEntry, ⟨⟩⟩ := List.mem_map.mp member
    exact List.mem_append_left _ isEntry
  | block _ | sentinel _ => cases member
  | _ =>
    rw [← map_slots]
    · exact List.mem_map_of_mem (f := Prod.snd) member
    · rfl

theorem Kind.exists_slot_of_mem_references (plain : kind.isPlain = true)
    (member : ref ∈ kind.references) : ∃ slot, (slot, ref) ∈ kind.slots := by
  rw [← map_slots plain] at member
  obtain ⟨⟨slot, _⟩, among, rfl⟩ := List.mem_map.mp member
  exact ⟨slot, among⟩

theorem Kind.slots_replaceChild {old new : NodeId} (member : (slot, ref) ∈ (kind.replaceChild old new).slots) :
    (slot, ref) ∈ kind.slots ∨ ref = new := by
  cases kind with
  | loop parts =>
    obtain ⟨shape, head, tail, body, after⟩ := parts
    cases shape <;>
      simp only [replaceChild, mapSlots, slots, LoopShape.slots, List.mem_cons, List.mem_append,
        List.mem_map, Option.mem_toList, Option.map_eq_some_iff, Prod.mk.injEq, List.not_mem_nil]
        at member ⊢ <;>
      grind
  | _ =>
    simp only [replaceChild, mapSlots, slots, List.mem_cons, List.mem_append, List.mem_map,
      Option.mem_toList, Option.map_eq_some_iff, Prod.mk.injEq, List.not_mem_nil] at member ⊢ <;>
    grind

end

variable {graph next final : FlowGraph} {id owner ref top : NodeId} {level : Option NodeId}
  {view : Option NodeId → Option NodeId} {slot : Slot}

theorem Sound.lt_of_mem_slots (sound : graph.Sound) (member : (slot, ref) ∈ (graph.node id).kind.slots) :
    ref < graph.size :=
  sound.slots id ref (Kind.mem_references_of_mem_slots member)

theorem owner_of_mem_slots (member : (slot, ref) ∈ (graph.node id).kind.slots) : graph.Owner id :=
  Kind.isStructure_of_mem_slots member

theorem slots_mapInstructions (graph : FlowGraph) (id : NodeId)
    (f : List Instruction → List Instruction) (other : NodeId) :
    ((graph.mapInstructions id f).node other).kind.slots = (graph.node other).kind.slots := by
  apply field_modify (·.kind.slots)
  intro node
  unfold Node.mapInstructions
  split
  · next isBlock =>
    rw [isBlock]
    rfl
  · rfl

/-! Slots that are filled from inside -/

/-- Nodes stay where they are, no structure is made, and a slot that changes gets a node directly
inside. -/
structure Refills (graph next : FlowGraph) : Prop where
  size : graph.size ≤ next.size
  parent : ∀ id < graph.size, (next.node id).parent = (graph.node id).parent
  owner : ∀ id, next.Owner id → graph.Owner id
  slots : ∀ id slot ref, (slot, ref) ∈ (next.node id).kind.slots →
    (slot, ref) ∈ (graph.node id).kind.slots ∨ (next.node ref).parent = some id

namespace Refills

theorem refl (graph : FlowGraph) : Refills graph graph :=
  ⟨Nat.le_refl _, fun _ _ => rfl, fun _ => id, fun _ _ _ => .inl⟩

theorem trans (first : Refills graph next) (second : Refills next final) : Refills graph final := by
  constructor
  · exact Nat.le_trans first.size second.size
  · intro id bound
    exact (second.parent id (Nat.lt_of_lt_of_le bound first.size)).trans (first.parent id bound)
  · exact fun id owner => first.owner id (second.owner id owner)
  · intro id slot ref member
    rcases second.slots id slot ref member with kept | inside
    · rcases first.slots id slot ref kept with older | inside
      · exact .inl older
      · exact .inr ((second.parent ref (lt_size_of_parent inside)).trans inside)
    · exact .inr inside

theorem of_kind (size : graph.size ≤ next.size)
    (parent : ∀ id < graph.size, (next.node id).parent = (graph.node id).parent)
    (kind : ∀ id, (next.node id).kind.isStructure = (graph.node id).kind.isStructure ∧
      (next.node id).kind.slots = (graph.node id).kind.slots) : Refills graph next := by
  refine ⟨size, parent, fun id owner => ?_, fun id slot ref member => .inl ?_⟩
  · rw [Owner, ← (kind id).1]
    exact owner
  · rw [← (kind id).2]
    exact member

theorem of_sameCores (same : SameCores graph next) : Refills graph next := by
  apply of_kind (Nat.le_of_eq same.size.symm) fun id _ => same.parent id
  intro id
  rw [same.kind]
  exact ⟨rfl, rfl⟩

theorem mapInstructions (graph : FlowGraph) (id : NodeId) (f : List Instruction → List Instruction) :
    Refills graph (graph.mapInstructions id f) := by
  apply of_kind (Nat.le_of_eq (size_mapInstructions f).symm) fun other _ => parent_mapInstructions f other
  intro other
  have kept (node : Node) : (node.mapInstructions f).kind.isStructure = node.kind.isStructure := by
    unfold Node.mapInstructions
    split
    · next isBlock =>
      rw [isBlock]
      rfl
    · rfl
  exact ⟨field_modify (·.kind.isStructure) _ kept other, slots_mapInstructions graph id f other⟩

theorem addNode (graph : FlowGraph) {kind : Kind} (start stop : Nat) (parent : Option NodeId)
    (leaf : kind.isStructure = false) : Refills graph (graph.addNode kind start stop parent) := by
  have empty : kind.slots = [] := by
    apply List.eq_nil_iff_forall_not_mem.mpr
    rintro ⟨slot, ref⟩ member
    rw [Kind.isStructure_of_mem_slots member] at leaf
    cases leaf
  apply of_kind (by simp) fun id bound => parent_addNode kind start stop parent bound
  intro id
  rw [node_addNode]
  split
  · next here =>
    rw [here, node_of_size_le (Nat.le_refl _)]
    exact ⟨leaf, empty⟩
  · exact ⟨rfl, rfl⟩

theorem substitute {old new : NodeId} (same : (graph.node new).parent = (graph.node old).parent) :
    Refills graph (graph.substitute old new) := by
  have cores := sameCores_movePredecessors graph old new
  have moved : Refills graph (graph.movePredecessors old new) := .of_sameCores cores
  unfold FlowGraph.substitute
  dsimp only
  split
  · next parent isParent =>
    refine moved.trans ⟨Nat.le_of_eq (size_mapKind _).symm, fun id _ => parent_mapKind _ id, ?_, ?_⟩
    · intro id owner
      rw [Owner, mapKind, node_modify] at owner
      split at owner
      · rw [Owner, ← (Kind.Becomes.of_mapSlots _ _).isStructure]
        exact owner
      · exact owner
    · intro id slot ref member
      rw [parent_mapKind]
      rw [mapKind, node_modify] at member
      split at member
      · next here =>
        rcases Kind.slots_replaceChild member with kept | rfl
        · exact .inl kept
        · rw [cores.parent, same, ← cores.parent, isParent, here.1]
          exact .inr rfl
      · exact .inl member
  · exact moved

theorem replaceJump (graph : FlowGraph) (block : NodeId) (sentinel : Sentinel) :
    Refills graph (graph.replaceJump block sentinel).1 := by
  unfold FlowGraph.replaceJump
  split
  · exact .refl graph
  · next jump last =>
    have cut : Refills graph ((graph.popInstruction block).clearSuccessors block) :=
      (mapInstructions graph block _).trans (.of_sameCores (sameCores_clearSuccessors _ block))
    have bound : block < ((graph.popInstruction block).clearSuccessors block).size :=
      Nat.lt_of_lt_of_le (lt_size_of_isBlock (Node.isBlock_of_last? last)) cut.size
    dsimp only
    generalize (graph.popInstruction block).clearSuccessors block = next at cut bound
    split
    · exact cut
    · have marked : Refills next (next.addNode (.sentinel sentinel) jump.address jump.nextAddress
          (next.node block).parent) := .addNode next _ _ _ rfl
      apply (cut.trans marked).trans
      split
      · apply substitute
        rw [node_addNode, if_pos rfl, parent_addNode _ _ _ _ bound]
      · exact .of_sameCores (sameCores_addEdge _ _)

end Refills

/-! Nodes inside others -/

theorem Below.isOwner (below : graph.Below (some top) id) (sound : graph.Sound) : graph.Owner top := by
  induction below with
  | here inside => exact sound.parents _ _ inside
  | up _ _ ih => exact ih

theorem Below.trans (below : graph.Below (some top) id) (above : graph.Below level top) :
    graph.Below level id := by
  induction below with
  | here inside => exact .up inside above
  | up inside _ ih => exact .up inside ih

/-- The node on a level that has another inside, unless that is on the level itself. -/
theorem Below.exists_top (below : graph.Below level id) :
    ∃ top, (graph.node top).parent = level ∧ (top = id ∨ graph.Below (some top) id) := by
  induction below with
  | @here id onLevel => exact ⟨id, onLevel, .inl rfl⟩
  | @up id parent inside _ ih =>
    obtain ⟨top, onLevel, rfl | above⟩ := ih
    · exact ⟨top, onLevel, .inr (.here inside)⟩
    · exact ⟨top, onLevel, .inr (.up inside above)⟩

theorem below_congr (parent : ∀ id < graph.size, (next.node id).parent = (graph.node id).parent)
    (sound : graph.Sound) (bound : id < graph.size) : next.Below level id ↔ graph.Below level id := by
  constructor
  · intro below
    induction below with
    | here onLevel => exact .here ((parent _ bound).symm.trans onLevel)
    | up inside _ ih =>
      rw [parent _ bound] at inside
      exact .up inside (ih (sound.parents _ _ inside).lt)
  · intro below
    induction below with
    | here onLevel => exact .here ((parent _ bound).trans onLevel)
    | up inside _ ih =>
      exact .up ((parent _ bound).trans inside) (ih (sound.parents _ _ inside).lt)

theorem Rooted.not_below_beside (rooted : graph.Rooted)
    (same : (graph.node ref).parent = (graph.node owner).parent) : ¬graph.Below (some ref) owner := by
  intro below
  obtain ⟨top, leads, isTop⟩ := below_iff.mp below
  -- The way up from the owner to the reference starts with the parent that both have.
  have cycle : Relation.TransGen graph.Inside ref ref := by
    rcases Relation.ReflTransGen.cases_head leads with rfl | ⟨parent, inside, above⟩
    · exact .single (same.trans isTop)
    · exact .head (same.trans inside) (.tail' above isTop)
  exact rooted.not_inside_itself ref cycle

theorem below_absorb_iff (placed : (graph.node owner).parent = level) {other : Option NodeId}
    (apart : other ≠ some owner) (start stop : Nat) :
    (graph.absorb owner level start stop).Below other id ↔ graph.Below other id := by
  have ownerKept : ((graph.absorb owner level start stop).node owner).parent = level := by
    rw [node_absorb, if_neg fun taken => taken.2.1 rfl, placed]
  constructor
  · intro below
    induction below with
    | @here id onLevel =>
      rw [node_absorb] at onLevel
      split at onLevel
      · exact absurd onLevel.symm apart
      · exact .here onLevel
    | @up id parent inside _ ih =>
      rw [node_absorb] at inside
      split at inside
      · next taken =>
        cases inside
        -- What was taken in goes up from the level of the structure.
        cases ih with
        | here onLevel => exact .here (taken.2.2.1.trans (placed.symm.trans onLevel))
        | up above below => exact .up (taken.2.2.1.trans (placed.symm.trans above)) below
      · exact .up inside ih
  · intro below
    have stays (id : NodeId) : ((graph.absorb owner level start stop).node id).parent = (graph.node id).parent ∨
        ((graph.absorb owner level start stop).node id).parent = some owner ∧
          (graph.node id).parent = level := by
      rw [node_absorb]
      split
      · next taken => exact .inr ⟨rfl, taken.2.2.1⟩
      · exact .inl rfl
    induction below with
    | @here id onLevel =>
      rcases stays id with same | ⟨inside, old⟩
      · exact .here (same.trans onLevel)
      · exact .up inside (.here (ownerKept.trans (old.symm.trans onLevel)))
    | @up id parent inside _ ih =>
      rcases stays id with same | ⟨taken, old⟩
      · exact .up (same.trans inside) ih
      · exact .up taken (.up (ownerKept.trans (old.symm.trans inside)) ih)

/-! Where the nodes in slots are -/

/-- A node that starts outside the range of a structure and does not have it inside. -/
structure Astray (graph : FlowGraph) (owner ref : NodeId) : Prop where
  apart : ¬graph.Below (some ref) owner
  outside : (graph.node ref).startsWithin (graph.node owner).start (graph.node owner).stop = false

/-- What has become of a node that was there when a structure took in what starts in its range: it is
inside, or the structure is deeper in than it, or what has the node inside starts elsewhere. -/
inductive Covers (graph : FlowGraph) (owner id : NodeId) : Prop
  | around (below : graph.Below (some owner) id)
  | deeper {outer : NodeId} (holds : graph.Below (some outer) owner) (apart : ¬graph.Below (some outer) id)
  | beside {top : NodeId} (holds : top = id ∨ graph.Below (some top) id) (astray : graph.Astray owner top)

/-- Nodes are inside each other as they were. -/
structure KeepsNesting (graph next : FlowGraph) : Prop where
  grows : Grows graph next
  below : ∀ top id, top < graph.size → id < graph.size → (next.Below (some top) id ↔ graph.Below (some top) id)

namespace KeepsNesting

theorem refl (graph : FlowGraph) : KeepsNesting graph graph := ⟨.refl graph, fun _ _ _ _ => .rfl⟩

theorem trans {final : FlowGraph} (first : KeepsNesting graph next) (second : KeepsNesting next final) :
    KeepsNesting graph final :=
  ⟨first.grows.trans second.grows, fun top id topBound bound =>
    (second.below top id (first.grows.lt topBound) (first.grows.lt bound)).trans (first.below top id topBound bound)⟩

theorem astray (keeps : KeepsNesting graph next) (astray : graph.Astray owner ref) (bound : owner < graph.size)
    (refBound : ref < graph.size) : next.Astray owner ref := by
  have becomes := keeps.grows.nodes owner bound
  refine ⟨fun below => astray.apart ((keeps.below ref owner refBound bound).mp below), ?_⟩
  rw [becomes.start, becomes.stop, Node.startsWithin, (keeps.grows.nodes ref refBound).start]
  exact astray.outside

theorem covers (keeps : KeepsNesting graph next) (sound : graph.Sound) (covers : graph.Covers owner id)
    (bound : owner < graph.size) (idBound : id < graph.size) : next.Covers owner id := by
  cases covers with
  | around below => exact .around ((keeps.below owner id bound idBound).mpr below)
  | @deeper outer holds apart =>
    have outerBound := (holds.isOwner sound).lt
    exact .deeper ((keeps.below outer owner outerBound bound).mpr holds) fun below =>
      apart ((keeps.below outer id outerBound idBound).mp below)
  | @beside top holds astray =>
    rcases holds with rfl | holds
    · exact .beside (.inl rfl) (keeps.astray astray bound idBound)
    · have topBound := (holds.isOwner sound).lt
      exact .beside (.inr ((keeps.below top id topBound idBound).mpr holds)) (keeps.astray astray bound topBound)

end KeepsNesting

/-- Where a node is that a structure has in a slot. It is directly inside, unless a newer structure
has taken it in, or the slot names a block that is deeper in, or it is not inside at all. -/
inductive Belongs (graph : FlowGraph) (owner : NodeId) (slot : Slot) (ref : NodeId) : Prop
  | direct (inside : (graph.node ref).parent = some owner)
  | taken {later : NodeId} (newer : owner < later) (around : (graph.node ref).parent = some later)
      (holds : graph.Below (some owner) later)
      (fits : (graph.node ref).startsWithin (graph.node later).start (graph.node later).stop = true)
  | deep (names : slot.namesBlock = true) (holds : graph.Below (some owner) ref)
  | astray (loose : slot.isLoose = true) (astray : graph.Astray owner ref)
  | within {top : NodeId} (names : slot.namesBlock = true) (holds : graph.Below (some top) ref)
      (astray : graph.Astray owner top)
  | elsewhere {fragment : NodeId} (isBreak : slot = .breakBlock)
      (isFragment : ∃ parts, (graph.node fragment).kind = .fragment parts)
      (holds : graph.Below (some fragment) owner) (apart : ¬graph.Below (some fragment) ref)

theorem Node.Becomes.startsWithin {before after : Node} (becomes : before.Becomes after)
    (start stop : Nat) : after.startsWithin start stop = before.startsWithin start stop := by
  rw [Node.startsWithin, Node.startsWithin, becomes.start]

/-- What is in a slot belongs there as long as it stays where it is or is taken in by a newer structure,
and nothing else on its way up changes. -/
theorem Belongs.congr (belongs : graph.Belongs id slot ref) (sound : graph.Sound)
    (grows : Grows graph next) (idBound : id < graph.size) (refBound : ref < graph.size)
    (parent : ∀ outer, (graph.node ref).parent = some outer → (next.node ref).parent = some outer ∨
      ∃ later, id < later ∧ (next.node ref).parent = some later ∧ (next.node later).parent = some outer ∧
        (next.node ref).startsWithin (next.node later).start (next.node later).stop = true)
    (below : ∀ top node, top < graph.size → node < graph.size →
      (top = id ∨ top = ref ∨ graph.Below (some top) ref ∨ graph.Below (some top) id) →
      (next.Below (some top) node ↔ graph.Below (some top) node)) : next.Belongs id slot ref := by
  have keptId := grows.nodes id idBound
  have stray {top : NodeId} (bound : top < graph.size)
      (near : top = ref ∨ graph.Below (some top) ref) (astray : graph.Astray id top) :
      next.Astray id top := by
    constructor
    · rw [below top id bound idBound (.inr (near.imp_right .inl))]
      exact astray.apart
    · rw [keptId.start, keptId.stop, (grows.nodes top bound).startsWithin]
      exact astray.outside
  cases belongs with
  | direct inside =>
    rcases parent id inside with same | ⟨later, newer, around, onLevel, fits⟩
    · exact .direct same
    · exact .taken newer around (.here onLevel) fits
  | @taken outer newer around holds fits =>
    have bound := (sound.parents ref outer around).lt
    have holdsNext := (below id outer idBound bound (.inl rfl)).mpr holds
    rcases parent outer around with same | ⟨later, newer, around, onLevel, fits⟩
    · refine .taken newer same holdsNext ?_
      have becomes := grows.nodes outer bound
      rw [becomes.start, becomes.stop, (grows.nodes ref refBound).startsWithin]
      exact fits
    · exact .taken newer around (.up onLevel holdsNext) fits
  | deep names inner => exact .deep names ((below id ref idBound refBound (.inl rfl)).mpr inner)
  | astray loose astray => exact .astray loose (stray refBound (.inl rfl) astray)
  | @within top names holds astray =>
    have bound := (holds.isOwner sound).lt
    refine .within names ?_ (stray bound (.inr holds) astray)
    exact (below top ref bound refBound (.inr (.inr (.inl holds)))).mpr holds
  | @elsewhere fragment isBreak isFragment holds apart =>
    have bound := (holds.isOwner sound).lt
    have holdsNext : next.Below (some fragment) id :=
      (below fragment id bound idBound (.inr (.inr (.inr holds)))).mpr holds
    refine .elsewhere isBreak ?_ holdsNext ?_
    · exact (grows.nodes fragment bound).kind.fragment_iff.mpr isFragment
    · rw [below fragment ref bound refBound (.inr (.inr (.inr holds)))]
      exact apart

end FlowGraph

end Structuring
