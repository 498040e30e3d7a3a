import Structuring.Proofs.Mutuality
import Structuring.Recovery.Fragment

/-! Graphs over time.

A graph is sound if its edges are mutual and every number in it stands for a node of the right
sort. The operations on graphs keep soundness, the range of every node, and in part what a node
is: a block only loses instructions, and a structure stays one.
-/

namespace Structuring.FlowGraph

open Bytecode Recovery

variable {graph next final : FlowGraph} {id old new block top : NodeId} {level : Option NodeId}
  {f : List Instruction → List Instruction}

/-- Whether a node may have others inside. -/
def Kind.isStructure : Kind → Bool
  | .fragment _ | .loop _ | .chain _ | .conditional _ | .switch _ | .staticInit _ => true
  | .block _ | .caseJump | .caseLabel _ | .sentinel _ => false

def Kind.isBlock : Kind → Bool
  | .block _ => true
  | _ => false

def LoopShape.references : LoopShape → List NodeId
  | .whileLoop _ incrementor => incrementor.toList
  | .withLoop breakBlock => breakBlock.toList
  | .doUntil | .repeatLoop => []

/-- The nodes that a node refers to besides its neighbours and its parent. -/
def Kind.references : Kind → List NodeId
  | .fragment parts => parts.entry.toList ++ parts.blocks
  | .loop parts =>
    parts.head :: parts.tail :: parts.after :: (parts.body.toList ++ parts.shape.references)
  | .chain parts => parts.operands
  | .conditional parts =>
    parts.condition :: parts.whenTrue :: parts.whenFalse :: parts.otherwise.toList
  | .switch parts => parts.cases :: (parts.body.toList ++ parts.endCases.toList)
  | .staticInit head => [head]
  | .block _ | .caseJump | .caseLabel _ | .sentinel _ => []

/-! Kinds over time -/

/-- Instructions left once some are dropped at the end, and at the start only what discards a
value. -/
def Shortens (before after : List Instruction) : Prop :=
  ∃ front back, before = front ++ after ++ back ∧ ∀ inst ∈ front, inst.opcode = .popz

theorem Shortens.refl (instructions : List Instruction) : Shortens instructions instructions :=
  ⟨[], [], by simp, by simp⟩

theorem Shortens.trans {first second third : List Instruction} (one : Shortens first second)
    (two : Shortens second third) : Shortens first third := by
  obtain ⟨front, back, rfl, discards⟩ := one
  obtain ⟨inner, rest, rfl, more⟩ := two
  refine ⟨front ++ inner, rest ++ back, by simp, fun inst member => ?_⟩
  rcases List.mem_append.mp member with outer | inner
  · exact discards inst outer
  · exact more inst inner

theorem Shortens.of_isPrefix {before after : List Instruction} (shorter : after <+: before) :
    Shortens before after := by
  obtain ⟨back, rfl⟩ := shorter
  exact ⟨[], back, by simp, by simp⟩

inductive LoopShape.Becomes : LoopShape → LoopShape → Prop
  | whileLoop {mustBeWhile : Bool} {before after : Option NodeId}
      (same : after.isSome = before.isSome) :
      Becomes (.whileLoop mustBeWhile before) (.whileLoop mustBeWhile after)
  | doUntil : Becomes .doUntil .doUntil
  | repeatLoop : Becomes .repeatLoop .repeatLoop
  | withLoop {before after : Option NodeId} (same : after.isSome = before.isSome) :
      Becomes (.withLoop before) (.withLoop after)

theorem LoopShape.Becomes.refl (shape : LoopShape) : shape.Becomes shape := by
  cases shape <;> constructor <;> rfl

theorem LoopShape.Becomes.trans {first second third : LoopShape} (one : first.Becomes second)
    (two : second.Becomes third) : first.Becomes third := by
  cases one <;> cases two <;> constructor <;> simp_all

/-- What a node may be later on: a block with fewer instructions, a fragment with more blocks, or
the same structure with other nodes in its slots. -/
inductive Kind.Becomes : Kind → Kind → Prop
  | block {index : Nat} {before after : List Instruction} (shorter : Shortens before after) :
      Becomes (.block ⟨index, before⟩) (.block ⟨index, after⟩)
  | fragment {name : String} {entry entry' : Option NodeId} {before after : List NodeId}
      (longer : before <+: after) :
      Becomes (.fragment ⟨name, entry, before⟩) (.fragment ⟨name, entry', after⟩)
  | loop {before after : Loop} (shape : before.shape.Becomes after.shape) :
      Becomes (.loop before) (.loop after)
  | chain {logic : Logic} {before after : List NodeId} :
      Becomes (.chain ⟨logic, before⟩) (.chain ⟨logic, after⟩)
  | conditional {before after : Conditional}
      (same : after.otherwise.isSome = before.otherwise.isSome) :
      Becomes (.conditional before) (.conditional after)
  | switch {before after : Switch} : Becomes (.switch before) (.switch after)
  | caseJump : Becomes .caseJump .caseJump
  | caseLabel {isDefault : Bool} : Becomes (.caseLabel isDefault) (.caseLabel isDefault)
  | staticInit {before after : NodeId} : Becomes (.staticInit before) (.staticInit after)
  | sentinel {which : Sentinel} : Becomes (.sentinel which) (.sentinel which)

namespace Kind.Becomes

variable {first second third : Kind}

theorem refl (kind : Kind) : kind.Becomes kind := by
  cases kind with
  | block parts => exact .block (.refl _)
  | fragment parts => exact .fragment List.prefix_rfl
  | loop parts => exact .loop (.refl _)
  | chain parts => exact .chain
  | conditional parts => exact .conditional rfl
  | switch parts => exact .switch
  | caseJump => exact .caseJump
  | caseLabel isDefault => exact .caseLabel
  | staticInit head => exact .staticInit
  | sentinel which => exact .sentinel

theorem trans (one : first.Becomes second) (two : second.Becomes third) : first.Becomes third := by
  cases one with
  | block shorter => cases two with | block more => exact .block (shorter.trans more)
  | fragment longer => cases two with | fragment more => exact .fragment (longer.trans more)
  | loop shape => cases two with | loop more => exact .loop (shape.trans more)
  | chain => cases two with | chain => exact .chain
  | conditional same =>
    cases two with | conditional again => exact .conditional (again.trans same)
  | switch => cases two with | switch => exact .switch
  | caseJump => exact two
  | caseLabel => exact two
  | staticInit => cases two with | staticInit => exact .staticInit
  | sentinel => exact two

theorem isStructure (becomes : first.Becomes second) : second.isStructure = first.isStructure := by
  cases becomes <;> rfl

theorem isBlock (becomes : first.Becomes second) : second.isBlock = first.isBlock := by
  cases becomes <;> rfl

theorem of_mapSlots (kind : Kind) (rename : NodeId → NodeId) : kind.Becomes (kind.mapSlots rename) := by
  cases kind with
  | block parts => exact .block (.refl _)
  | fragment parts => exact .fragment List.prefix_rfl
  | loop parts =>
    obtain ⟨shape, head, tail, body, after⟩ := parts
    refine .loop ?_
    cases shape with
    | whileLoop mustBeWhile incrementor => exact .whileLoop (by simp)
    | doUntil => exact .doUntil
    | repeatLoop => exact .repeatLoop
    | withLoop breakBlock => exact .withLoop (by simp)
  | chain parts => exact .chain
  | conditional parts => exact .conditional (by simp)
  | switch parts => exact .switch
  | caseJump => exact .caseJump
  | caseLabel isDefault => exact .caseLabel
  | staticInit head => exact .staticInit
  | sentinel which => exact .sentinel

end Kind.Becomes

theorem Kind.references_replaceChild {ref : NodeId} {kind : Kind}
    (member : ref ∈ (kind.replaceChild old new).references) : ref ∈ kind.references ∨ ref = new := by
  cases kind with
  | loop parts =>
    obtain ⟨shape, head, tail, body, after⟩ := parts
    cases shape <;>
      simp only [replaceChild, mapSlots, references, LoopShape.references, List.mem_cons,
        List.mem_append, Option.mem_toList, Option.map_eq_some_iff, List.not_mem_nil] at member ⊢ <;>
      grind
  | _ =>
    simp only [replaceChild, mapSlots, references, List.mem_cons, List.mem_append, List.mem_map,
      Option.mem_toList, Option.map_eq_some_iff, List.not_mem_nil] at member ⊢ <;>
    grind

/-! Graphs over time -/

structure Node.Becomes (before after : Node) : Prop where
  start : after.start = before.start
  stop : after.stop = before.stop
  kind : before.kind.Becomes after.kind

theorem Node.Becomes.refl (node : Node) : node.Becomes node := ⟨rfl, rfl, .refl _⟩

theorem Node.Becomes.trans {first second third : Node} (one : first.Becomes second)
    (two : second.Becomes third) : first.Becomes third :=
  ⟨two.start.trans one.start, two.stop.trans one.stop, one.kind.trans two.kind⟩

theorem Node.Becomes.instructions {before after : Node} (becomes : before.Becomes after) :
    Shortens before.instructions after.instructions := by
  have kind := becomes.kind
  unfold Node.instructions
  generalize before.kind = first, after.kind = second at kind
  cases kind with
  | block shorter => exact shorter
  | _ => exact .refl _

/-- Nodes are added and changed in part, never taken away. -/
structure Grows (graph next : FlowGraph) : Prop where
  size : graph.size ≤ next.size
  nodes : ∀ id < graph.size, (graph.node id).Becomes (next.node id)

namespace Grows

theorem refl (graph : FlowGraph) : Grows graph graph := ⟨Nat.le_refl _, fun _ _ => .refl _⟩

theorem trans (first : Grows graph next) (second : Grows next final) : Grows graph final :=
  ⟨Nat.le_trans first.size second.size, fun id bound =>
    (first.nodes id bound).trans (second.nodes id (Nat.lt_of_lt_of_le bound first.size))⟩

theorem of_sameCores (same : SameCores graph next) : Grows graph next := by
  refine ⟨Nat.le_of_eq same.size.symm, fun id _ => ⟨same.start id, same.stop id, ?_⟩⟩
  rw [same.kind id]
  exact .refl _

theorem of_modify (f : Node → Node) (becomes : (graph.node id).Becomes (f (graph.node id))) :
    Grows graph (graph.modify id f) := by
  refine ⟨Nat.le_of_eq (size_modify f).symm, fun other bound => ?_⟩
  rw [node_modify]
  split
  · next here =>
    rw [← here.1]
    exact becomes
  · exact .refl _

theorem lt (grows : Grows graph next) (bound : id < graph.size) : id < next.size :=
  Nat.lt_of_lt_of_le bound grows.size

end Grows

/-! Sound graphs -/

def Owner (graph : FlowGraph) (id : NodeId) : Prop := (graph.node id).kind.isStructure = true

def IsLevel (graph : FlowGraph) (level : Option NodeId) : Prop :=
  ∀ owner, level = some owner → graph.Owner owner

/-- Edges are mutual, parents are structures, and every other number in a node is one of a node. -/
structure Sound (graph : FlowGraph) : Prop where
  edges : graph.Mutual
  parents : ∀ id, graph.IsLevel (graph.node id).parent
  slots : ∀ id, ∀ ref ∈ (graph.node id).kind.references, ref < graph.size

theorem Owner.of_kind {kind : Kind} (isKind : (graph.node id).kind = kind)
    (structured : kind.isStructure = true) : graph.Owner id :=
  (congrArg Kind.isStructure isKind).trans structured

theorem Owner.isBlock_eq_false (owner : graph.Owner id) : (graph.node id).kind.isBlock = false := by
  unfold Owner at owner
  cases isKind : (graph.node id).kind with
  | block parts =>
    rw [isKind] at owner
    exact absurd owner Bool.false_ne_true
  | _ => rfl

theorem Owner.lt (owner : graph.Owner id) : id < graph.size := by
  apply Nat.lt_of_not_le
  intro outside
  rw [Owner, node_of_size_le outside] at owner
  exact absurd owner Bool.false_ne_true

theorem Kind.ne_empty_of_isBlock {kind : Kind} (isBlock : kind.isBlock = true) : kind ≠ .sentinel .empty := by
  rintro rfl
  exact Bool.false_ne_true isBlock

theorem Owner.ne_empty (owner : graph.Owner id) : (graph.node id).kind ≠ .sentinel .empty := by
  intro empty
  rw [Owner, empty] at owner
  exact Bool.false_ne_true owner

theorem lt_size_of_isBlock (isBlock : (graph.node id).kind.isBlock = true) : id < graph.size := by
  apply Nat.lt_of_not_le
  intro outside
  rw [node_of_size_le outside] at isBlock
  exact absurd isBlock Bool.false_ne_true

namespace Grows

theorem owner (grows : Grows graph next) (owner : graph.Owner id) : next.Owner id :=
  (grows.nodes id owner.lt).kind.isStructure.trans owner

theorem isLevel (grows : Grows graph next) (isLevel : graph.IsLevel level) : next.IsLevel level :=
  fun owner same => grows.owner (isLevel owner same)

end Grows

theorem sound_empty : Sound {} := by
  refine ⟨mutual_empty, fun id owner parent => ?_, fun id ref member => ?_⟩
  · rw [node_of_size_le (Nat.zero_le id)] at parent
    exact absurd parent (by simp [Node.absent])
  · rw [node_of_size_le (Nat.zero_le id)] at member
    cases member

structure Maintains (graph next : FlowGraph) : Prop where
  grows : Grows graph next
  sound : graph.Sound → next.Sound

namespace Maintains

theorem refl (graph : FlowGraph) : Maintains graph graph := ⟨.refl graph, id⟩

theorem trans (first : Maintains graph next) (second : Maintains next final) : Maintains graph final :=
  ⟨first.grows.trans second.grows, fun sound => second.sound (first.sound sound)⟩

theorem of_sameCores (same : SameCores graph next) (edges : graph.Mutual → next.Mutual) :
    Maintains graph next := by
  refine ⟨.of_sameCores same, fun sound => ⟨edges sound.edges, fun id => ?_, fun id => ?_⟩⟩
  · rw [same.parent]
    exact (Grows.of_sameCores same).isLevel (sound.parents id)
  · rw [same.kind, same.size]
    exact sound.slots id

theorem of_modify (f : Node → Node) (successors : ∀ node, (f node).successors = node.successors)
    (predecessors : ∀ node, (f node).predecessors = node.predecessors)
    (becomes : (graph.node id).Becomes (f (graph.node id)))
    (level : graph.Sound → graph.IsLevel (f (graph.node id)).parent)
    (slots : graph.Sound → ∀ ref ∈ (f (graph.node id)).kind.references, ref < graph.size) :
    Maintains graph (graph.modify id f) := by
  have grows : Grows graph (graph.modify id f) := .of_modify f becomes
  refine ⟨grows, fun sound =>
    ⟨(sameEdges_modify f successors predecessors).mutual sound.edges, fun other => ?_,
      fun other ref member => ?_⟩⟩
  · rw [node_modify]
    split
    · next here =>
      rw [← here.1]
      exact grows.isLevel (level sound)
    · exact grows.isLevel (sound.parents other)
  · rw [node_modify] at member
    rw [size_modify]
    split at member
    · next here =>
      rw [← here.1] at member
      exact slots sound ref member
    · exact sound.slots other ref member

end Maintains

/-! Operations -/

theorem maintains_addEdge {source target : NodeId} (sourceBound : source < graph.size)
    (targetBound : target < graph.size) : Maintains graph (graph.addEdge source target) :=
  .of_sameCores (sameCores_addEdge source target) fun edges =>
    mutual_addEdge edges sourceBound targetBound

theorem maintains_removeEdge (graph : FlowGraph) (source target : NodeId) :
    Maintains graph (graph.removeEdge source target) :=
  .of_sameCores (sameCores_removeEdge graph source target) fun edges =>
    mutual_removeEdge edges source target

theorem maintains_clearSuccessors (graph : FlowGraph) (id : NodeId) :
    Maintains graph (graph.clearSuccessors id) :=
  .of_sameCores (sameCores_clearSuccessors graph id) fun edges => mutual_clearSuccessors edges id

theorem maintains_movePredecessors (bound : new < graph.size) :
    Maintains graph (graph.movePredecessors old new) :=
  .of_sameCores (sameCores_movePredecessors graph old new) fun edges =>
    mutual_movePredecessors edges old bound

theorem maintains_mapKind (f : Kind → Kind) (becomes : (graph.node id).kind.Becomes (f (graph.node id).kind))
    (slots : graph.Sound → ∀ ref ∈ (f (graph.node id).kind).references, ref < graph.size) :
    Maintains graph (graph.mapKind id f) :=
  .of_modify _ (fun _ => rfl) (fun _ => rfl) ⟨rfl, rfl, becomes⟩ (fun sound => sound.parents id) slots

theorem maintains_replaceChild (bound : new < graph.size) :
    Maintains graph (graph.mapKind id (·.replaceChild old new)) := by
  refine maintains_mapKind _ (.of_mapSlots _ _) fun sound ref member => ?_
  rcases Kind.references_replaceChild member with kept | same
  · exact sound.slots id ref kept
  · exact same ▸ bound

theorem maintains_substitute (bound : new < graph.size) : Maintains graph (graph.substitute old new) := by
  have moved : Maintains graph (graph.movePredecessors old new) := maintains_movePredecessors bound
  unfold substitute
  dsimp only
  split
  · exact moved.trans (maintains_replaceChild (moved.grows.lt bound))
  · exact moved

theorem maintains_setParent {owner : NodeId} (structured : graph.Owner owner) :
    Maintains graph (graph.setParent id (some owner)) := by
  refine .of_modify _ (fun _ => rfl) (fun _ => rfl) ⟨rfl, rfl, .refl _⟩ (fun _ other same => ?_)
    (fun sound => sound.slots id)
  cases same
  exact structured

theorem Node.Becomes.mapInstructions {node : Node}
    (shorter : Shortens node.instructions (f node.instructions)) : node.Becomes (node.mapInstructions f) := by
  obtain ⟨start, stop, predecessors, successors, parent, kind⟩ := node
  cases kind with
  | block parts => exact ⟨rfl, rfl, .block shorter⟩
  | _ => exact .refl _

theorem Node.parent_mapInstructions (node : Node) (f : List Instruction → List Instruction) :
    (node.mapInstructions f).parent = node.parent := by
  unfold Node.mapInstructions
  split <;> rfl

theorem Node.references_mapInstructions (node : Node) (f : List Instruction → List Instruction) :
    (node.mapInstructions f).kind.references = node.kind.references := by
  unfold Node.mapInstructions
  split
  · next isBlock => rw [isBlock]; rfl
  · rfl

theorem maintains_mapInstructions
    (shorter : Shortens (graph.node id).instructions (f (graph.node id).instructions)) :
    Maintains graph (graph.mapInstructions id f) := by
  refine .of_modify _ (·.successors_mapInstructions f) (·.predecessors_mapInstructions f)
    (.mapInstructions shorter) (fun sound => ?_) (fun sound => ?_)
  · rw [Node.parent_mapInstructions]
    exact sound.parents id
  · rw [Node.references_mapInstructions]
    exact sound.slots id

theorem maintains_popInstruction (graph : FlowGraph) (id : NodeId) :
    Maintains graph (graph.popInstruction id) :=
  maintains_mapInstructions (.of_isPrefix (List.dropLast_prefix _))

theorem maintains_addNode {kind : Kind} {parent : Option NodeId} (start stop : Nat)
    (slots : ∀ ref ∈ kind.references, ref < graph.size) (level : graph.Sound → graph.IsLevel parent) :
    Maintains graph (graph.addNode kind start stop parent) := by
  have grows : Grows graph (graph.addNode kind start stop parent) := by
    refine ⟨by simp, fun id bound => ?_⟩
    rw [node_addNode, if_neg (Nat.ne_of_lt bound)]
    exact .refl _
  refine ⟨grows, fun sound =>
    ⟨(sameEdges_addNode kind start stop parent).mutual sound.edges, fun id => ?_, fun id ref member => ?_⟩⟩
  · rw [node_addNode]
    split
    · exact grows.isLevel (level sound)
    · exact grows.isLevel (sound.parents id)
  · rw [node_addNode] at member
    rw [size_addNode]
    split at member
    · exact Nat.lt_succ_of_lt (slots ref member)
    · exact Nat.lt_succ_of_lt (sound.slots id ref member)

theorem maintains_absorb {owner : NodeId} (structured : graph.Owner owner) (level : Option NodeId)
    (start stop : Nat) : Maintains graph (graph.absorb owner level start stop) := by
  have grows : Grows graph (graph.absorb owner level start stop) := by
    refine ⟨by simp, fun id bound => ?_⟩
    rw [node_absorb]
    split
    · exact ⟨rfl, rfl, .refl _⟩
    · exact .refl _
  refine ⟨grows, fun sound =>
    ⟨(sameEdges_absorb owner level start stop).mutual sound.edges, fun id => ?_, fun id => ?_⟩⟩
  · rw [node_absorb]
    split
    · intro other same
      cases same
      exact grows.owner structured
    · exact grows.isLevel (sound.parents id)
  · rw [node_absorb, size_absorb]
    split <;> exact sound.slots id

theorem maintains_ownBlock {owner : NodeId} (structured : graph.Owner owner)
    (bound : block < graph.size) : Maintains graph (ownBlock graph owner block) := by
  have placed : Maintains graph (graph.setParent block (some owner)) := maintains_setParent structured
  refine placed.trans (maintains_mapKind _ ?_ fun sound ref member => ?_)
  · generalize (node (graph.setParent block (some owner)) owner).kind = kind
    cases kind with
    | fragment parts => exact .fragment (List.prefix_append _ _)
    | _ => exact .refl _
  · have kept := sound.slots owner ref
    have blockBound : block < (graph.setParent block (some owner)).size := by simpa using bound
    generalize (node (graph.setParent block (some owner)) owner).kind = kind at member kept
    cases kind with
    | fragment parts =>
      simp only [Kind.references, List.mem_append, Option.mem_toList, List.mem_singleton,
        Option.or_eq_some_iff, Option.some.injEq] at member kept
      grind
    | _ => exact kept member

theorem Node.isBlock_of_last? {node : Node} {inst : Instruction} (last : node.last? = some inst) :
    node.kind.isBlock = true := by
  cases isKind : node.kind with
  | block parts => rfl
  | _ => simp [Node.last?, Node.instructions, isKind] at last

theorem size_substitute (old new : NodeId) : (graph.substitute old new).size = graph.size := by
  have moved := (sameCores_movePredecessors graph old new).size
  unfold substitute
  dsimp only
  split
  · rw [size_mapKind, moved]
  · exact moved

theorem size_cutJump (graph : FlowGraph) (block : NodeId) :
    ((graph.popInstruction block).clearSuccessors block).size = graph.size :=
  (sameCores_clearSuccessors _ block).size.trans (size_mapInstructions _)

/-- Putting a sentinel in the place of a jump is a handful of other operations. If it makes a
node, that is the sentinel, with the range of the jump. -/
theorem replaceJump_spec {jump : Instruction}
    (last : (graph.node block).last? = some jump) (sentinel : Sentinel) :
    Maintains graph (graph.replaceJump block sentinel).1 ∧
      ((graph.replaceJump block sentinel).1.size = graph.size ∨
        (graph.replaceJump block sentinel).1.size = graph.size + 1 ∧
          ∃ parent, Node.Becomes ⟨jump.address, jump.nextAddress, [], [], parent, .sentinel sentinel⟩
            ((graph.replaceJump block sentinel).1.node graph.size)) := by
  have cut : Maintains graph ((graph.popInstruction block).clearSuccessors block) :=
    (maintains_popInstruction graph block).trans (maintains_clearSuccessors _ block)
  have cutSize := size_cutJump graph block
  simp only [replaceJump, last]
  generalize (graph.popInstruction block).clearSuccessors block = next at cut cutSize
  split
  · exact ⟨cut, .inl cutSize⟩
  · generalize isMade : next.addNode (.sentinel sentinel) jump.address jump.nextAddress
      (next.node block).parent = made
    have marked : Maintains next made :=
      isMade ▸ maintains_addNode _ _ (List.forall_mem_nil _) fun sound =>
        sound.parents block
    have fresh : made.node graph.size =
        ⟨jump.address, jump.nextAddress, [], [], (next.node block).parent, .sentinel sentinel⟩ := by
      rw [← isMade, node_addNode, if_pos cutSize.symm]
    have size : made.size = graph.size + 1 := by rw [← isMade, size_addNode, cutSize]
    have newBound : next.size < made.size := by omega
    have blockBound : block < made.size :=
      marked.grows.lt (cut.grows.lt (lt_size_of_isBlock (Node.isBlock_of_last? last)))
    have finish (final : FlowGraph) (grown : Maintains made final) (same : final.size = made.size) :
        Maintains graph final ∧ (final.size = graph.size ∨ final.size = graph.size + 1 ∧
          ∃ parent, Node.Becomes ⟨jump.address, jump.nextAddress, [], [], parent,
            .sentinel sentinel⟩ (final.node graph.size)) := by
      refine ⟨(cut.trans marked).trans grown, .inr ⟨same.trans size, (next.node block).parent, ?_⟩⟩
      rw [← fresh]
      exact grown.grows.nodes _ (by omega)
    split
    · exact finish _ (maintains_substitute newBound) (size_substitute _ _)
    · exact finish _ (maintains_addEdge blockBound newBound) (sameCores_addEdge _ _).size

theorem maintains_replaceJump (graph : FlowGraph) (block : NodeId) (sentinel : Sentinel) :
    Maintains graph (graph.replaceJump block sentinel).1 := by
  cases last : (graph.node block).last? with
  | none =>
    simp only [replaceJump, last]
    exact .refl graph
  | some jump => exact (replaceJump_spec last sentinel).1

/-! Climbing -/

theorem Sound.climbWithin_lt (sound : graph.Sound) (fuel : Nat)
    (bound : id < graph.size) (found : graph.climbWithin level fuel id = some top) : top < graph.size := by
  induction fuel generalizing id with
  | zero => exact absurd found (by simp [climbWithin])
  | succ fuel ih =>
    unfold climbWithin at found
    split at found
    · cases found
      exact bound
    · split at found
      · next parent isParent => exact ih (sound.parents id parent isParent).lt found
      · cases found

theorem Sound.climb_lt (sound : graph.Sound)
    (bound : id < graph.size) (found : graph.climb id level = some top) : top < graph.size :=
  sound.climbWithin_lt graph.size bound found

theorem Sound.climb_getD_lt (sound : graph.Sound) (level : Option NodeId) (bound : id < graph.size) :
    (graph.climb id level).getD id < graph.size := by
  cases found : graph.climb id level with
  | none => exact bound
  | some top => exact sound.climb_lt bound found

end Structuring.FlowGraph
