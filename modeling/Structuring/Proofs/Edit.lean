import Mathlib.Logic.Relation
import Structuring.Proofs.Growth
import Structuring.Recovery.Loop.Shape
import Structuring.Recovery.Switch.Insert

/-! What a recovery may do to a graph.

Every pass works through the same few edits, and each edit is made under conditions that keep a
graph sound. What holds of the edits therefore holds of every pass, wherever it stops.
-/

namespace Structuring.FlowGraph

open Bytecode Recovery

variable {fragment block other : NodeId} {which : Sentinel}

def Kind.isPlain : Kind → Bool
  | .block _ | .fragment _ | .sentinel .breaks | .sentinel .continues | .sentinel .returns => false
  | _ => true

theorem Kind.Becomes.isPlain_eq {before after : Kind} (becomes : before.Becomes after) :
    after.isPlain = before.isPlain := by
  cases becomes <;> rfl

theorem Kind.Becomes.fragment_iff {first second : Kind} (becomes : first.Becomes second) :
    (∃ parts, second = .fragment parts) ↔ ∃ parts, first = .fragment parts := by
  cases becomes <;> simp

theorem Kind.Becomes.loop_iff {first second : Kind} (becomes : first.Becomes second) :
    (∃ parts, second = .loop parts) ↔ ∃ parts, first = .loop parts := by
  cases becomes <;> simp

theorem Kind.Becomes.switch_iff {first second : Kind} (becomes : first.Becomes second) :
    (∃ parts, second = .switch parts) ↔ ∃ parts, first = .switch parts := by
  cases becomes <;> simp

structure Encloser (graph : FlowGraph) (id : NodeId) : Prop where
  owner : graph.Owner id
  plain : (graph.node id).kind.isPlain = true

theorem Encloser.of_kind {graph : FlowGraph} {id : NodeId} {kind : Kind}
    (isKind : (graph.node id).kind = kind) (structured : kind.isStructure = true)
    (plain : kind.isPlain = true) : graph.Encloser id :=
  ⟨.of_kind isKind structured, (congrArg Kind.isPlain isKind).trans plain⟩

theorem Encloser.not_fragment {graph : FlowGraph} {id : NodeId} (encloser : graph.Encloser id) :
    ¬∃ parts, (graph.node id).kind = .fragment parts := by
  rintro ⟨parts, isFragment⟩
  have plain := encloser.plain
  rw [isFragment] at plain
  exact absurd plain (by simp [Kind.isPlain])

theorem Grows.encloser {graph next : FlowGraph} {id : NodeId} (grows : Grows graph next)
    (encloser : graph.Encloser id) : next.Encloser id :=
  ⟨grows.owner encloser.owner, (grows.nodes id encloser.owner.lt).kind.isPlain_eq.trans encloser.plain⟩

def Kind.members : Kind → List NodeId
  | .fragment parts => parts.blocks
  | _ => []

theorem fragmentBlocks_eq (graph : FlowGraph) (id : NodeId) :
    fragmentBlocks graph id = (graph.node id).kind.members := by
  unfold fragmentBlocks
  cases (graph.node id).kind <;> rfl

theorem isFragment_of_mem_fragmentBlocks {graph : FlowGraph}
    (member : block ∈ fragmentBlocks graph fragment) : ∃ parts, (graph.node fragment).kind = .fragment parts := by
  unfold fragmentBlocks at member
  split at member
  · next parts isFragment => exact ⟨parts, isFragment⟩
  · cases member

theorem owner_of_mem_fragmentBlocks {graph : FlowGraph}
    (member : block ∈ fragmentBlocks graph fragment) : graph.Owner fragment := by
  obtain ⟨_, isFragment⟩ := isFragment_of_mem_fragmentBlocks member
  exact .of_kind isFragment rfl

theorem lt_of_mem_fragmentBlocks {graph : FlowGraph} (sound : graph.Sound)
    (member : block ∈ fragmentBlocks graph fragment) : block < graph.size := by
  obtain ⟨_, isFragment⟩ := isFragment_of_mem_fragmentBlocks member
  refine sound.slots fragment block ?_
  rw [fragmentBlocks_eq] at member
  rw [isFragment] at member ⊢
  exact List.mem_append_right _ member

/-- What edits are free to do. -/
structure Rights where
  /-- Which sentinels may take the place of the jump at the end of a block. -/
  marks : NodeId → Instruction → Sentinel → Prop
  /-- Whether structures may take other nodes in. -/
  encloses : Prop
  /-- Whether blocks may be made. -/
  cuts : Prop
  /-- Whether fragments may be made. -/
  founds : Prop
  /-- Whether fragments may take blocks over. -/
  owns : Prop
  /-- Whether claims may change. -/
  claims : Prop
  /-- Whether loops may take nodes in from anywhere, and get anything into their slots. -/
  reshapes : Prop

namespace Rights

def full : Rights := ⟨fun _ _ _ => True, True, True, True, True, True, True⟩

def none : Rights := ⟨fun _ _ _ => False, False, False, False, False, False, False⟩

def staying (rights : Rights) : Rights := { rights with encloses := False }

/-- What leaves jumps as they are. -/
def unmarked (rights : Rights) : Rights := { rights with marks := fun _ _ _ => False }

def settled (rights : Rights) : Rights := { rights with cuts := False, founds := False, owns := False }

def keepingClaims (rights : Rights) : Rights := { rights with claims := False }

structure Within (less more : Rights) : Prop where
  marks : ∀ block jump sentinel, less.marks block jump sentinel → more.marks block jump sentinel
  encloses : less.encloses → more.encloses
  cuts : less.cuts → more.cuts
  founds : less.founds → more.founds
  owns : less.owns → more.owns
  claims : less.claims → more.claims
  reshapes : less.reshapes → more.reshapes

theorem Within.refl (rights : Rights) : rights.Within rights :=
  ⟨fun _ _ _ => id, id, id, id, id, id, id⟩

theorem staying_within (rights : Rights) : rights.staying.Within rights :=
  ⟨fun _ _ _ => id, False.elim, id, id, id, id, id⟩

theorem unmarked_within (rights : Rights) : rights.unmarked.Within rights :=
  ⟨fun _ _ _ => False.elim, id, id, id, id, id, id⟩

theorem settled_within (rights : Rights) : rights.settled.Within rights :=
  ⟨fun _ _ _ => id, id, False.elim, False.elim, False.elim, id, id⟩

theorem keepingClaims_within (rights : Rights) : rights.keepingClaims.Within rights :=
  ⟨fun _ _ _ => id, id, id, id, id, False.elim, id⟩

theorem within_full (rights : Rights) : rights.Within full :=
  ⟨fun _ _ _ _ => trivial, fun _ => trivial, fun _ => trivial, fun _ => trivial, fun _ => trivial,
    fun _ => trivial, fun _ => trivial⟩

end Rights

variable {rights less : Rights} {graph next final : FlowGraph} {id : NodeId}

/-- What comes in the place of a node that a loop has in a slot is a switch, or starts where it did. -/
def Replaces (graph : FlowGraph) (id old new : NodeId) : Prop :=
  ∀ parts, (graph.node id).kind = .loop parts → (∃ switch, (graph.node new).kind = .switch switch) ∨
    (∀ switch, (graph.node old).kind ≠ .switch switch) ∧ (graph.node new).start = (graph.node old).start ∧
      (graph.node new).kind.isBlock = false

def Grounded (graph : FlowGraph) (owner : NodeId) (level : Option NodeId) : Prop :=
  ∀ parts, (graph.node owner).kind = .loop parts →
    ∃ fragment parts, level = some fragment ∧ (graph.node fragment).kind = .fragment parts

theorem Grows.grounded (grows : Grows graph next) {owner : NodeId} {level : Option NodeId} (bound : owner < graph.size)
    (apart : ∀ parts, (graph.node owner).kind ≠ .loop parts) : next.Grounded owner level := by
  intro parts isLoop
  obtain ⟨_, was⟩ := (grows.nodes owner bound).kind.loop_iff.mp ⟨parts, isLoop⟩
  exact absurd was (apart _)

theorem Grows.replaces (grows : Grows graph next) {old new : NodeId} (bound : old < graph.size)
    (apart : ∀ parts, (graph.node old).kind ≠ .switch parts) (start : (next.node new).start = (graph.node old).start)
    (structured : next.Owner new) : next.Replaces id old new := by
  have becomes := grows.nodes old bound
  refine fun _ _ => .inr ⟨fun parts isSwitch => ?_, start.trans becomes.start.symm, structured.isBlock_eq_false⟩
  obtain ⟨_, was⟩ := becomes.kind.switch_iff.mp ⟨parts, isSwitch⟩
  exact absurd was (apart _)

/-- One edit of a graph. Edges come and go between nodes, only empty sentinels are given a structure by
themselves, and a structure takes nodes in from its own level. -/
inductive GraphEdit (rights : Rights) (graph : FlowGraph) : FlowGraph → Prop
  | addNode (kind : Kind) (start stop : Nat) (parent : Option NodeId)
      (plain : kind.isPlain = true) (slots : ∀ ref ∈ kind.references, ref < graph.size)
      (level : graph.IsLevel parent) :
      GraphEdit rights graph (graph.addNode kind start stop parent)
  | addFragment (name : String) (start stop : Nat) (parent : Option NodeId) (free : rights.founds)
      (level : graph.IsLevel parent) :
      GraphEdit rights graph (graph.addNode (.fragment ⟨name, none, []⟩) start stop parent)
  | relink (next : FlowGraph) (same : SameCores graph next) (maintains : Maintains graph next) :
      GraphEdit rights graph next
  | rename (id old new : NodeId) (bound : new < graph.size)
      (replaces : rights.reshapes ∨ graph.Replaces id old new) :
      GraphEdit rights graph (graph.mapKind id (·.replaceChild old new))
  | fill (id : NodeId) (kind : Kind) (plain : kind.isPlain = true)
      (becomes : (graph.node id).kind.Becomes kind)
      (slots : ∀ ref ∈ kind.references, ref < graph.size)
      (apart : rights.reshapes ∨ ∀ parts, kind ≠ .loop parts) :
      GraphEdit rights graph (graph.mapKind id fun _ => kind)
  | place (id owner : NodeId) (empty : (graph.node id).kind = .sentinel .empty)
      (structured : graph.Owner owner) :
      GraphEdit rights graph (graph.setParent id (some owner))
  | own (owner block : NodeId) (free : rights.owns) (structured : graph.Owner owner)
      (isBlock : (graph.node block).kind.isBlock = true) :
      GraphEdit rights graph (ownBlock graph owner block)
  | shorten (id : NodeId) (f : List Instruction → List Instruction)
      (shorter : Shortens (graph.node id).instructions (f (graph.node id).instructions)) :
      GraphEdit rights graph (graph.mapInstructions id f)
  | mark (block : NodeId) (jump : Instruction) (sentinel : Sentinel)
      (last : (graph.node block).last? = some jump)
      (allowed : jump.opcode = .b ∧ (sentinel ≠ .empty → rights.marks block jump sentinel)) :
      GraphEdit rights graph (graph.replaceJump block sentinel).1
  | absorb (owner : NodeId) (level : Option NodeId) (start stop : Nat) (free : rights.encloses)
      (structured : graph.Encloser owner) (onLevel : (graph.node owner).parent = level)
      (grounded : rights.reshapes ∨ graph.Grounded owner level) :
      GraphEdit rights graph (graph.absorb owner level start stop)

namespace GraphEdit

theorem addEdge (source target : NodeId) (sourceBound : source < graph.size) (targetBound : target < graph.size) :
    GraphEdit rights graph (graph.addEdge source target) :=
  .relink _ (sameCores_addEdge source target) (maintains_addEdge sourceBound targetBound)

theorem removeEdge (source target : NodeId) : GraphEdit rights graph (graph.removeEdge source target) :=
  .relink _ (sameCores_removeEdge graph source target) (maintains_removeEdge graph source target)

theorem clearSuccessors (id : NodeId) : GraphEdit rights graph (graph.clearSuccessors id) :=
  .relink _ (sameCores_clearSuccessors graph id) (maintains_clearSuccessors graph id)

theorem movePredecessors (old new : NodeId) (bound : new < graph.size) :
    GraphEdit rights graph (graph.movePredecessors old new) :=
  .relink _ (sameCores_movePredecessors graph old new) (maintains_movePredecessors bound)

theorem maintains (edit : GraphEdit rights graph next) : Maintains graph next := by
  cases edit with
  | addNode kind start stop parent _ slots level =>
    exact maintains_addNode start stop slots fun _ => level
  | addFragment name start stop parent _ level =>
    exact maintains_addNode start stop (List.forall_mem_nil _) fun _ => level
  | relink _ _ maintains => exact maintains
  | rename id old new bound _ => exact maintains_replaceChild bound
  | fill id kind _ becomes slots _ => exact maintains_mapKind _ becomes fun _ => slots
  | place id owner _ structured => exact maintains_setParent structured
  | own owner block _ structured isBlock =>
    exact maintains_ownBlock structured (lt_size_of_isBlock isBlock)
  | shorten id f shorter => exact maintains_mapInstructions shorter
  | mark block jump sentinel _ _ => exact maintains_replaceJump graph block sentinel
  | absorb owner level start stop _ structured _ _ =>
    exact maintains_absorb structured.owner level start stop

theorem mono (within : less.Within rights) (edit : GraphEdit less graph next) :
    GraphEdit rights graph next := by
  cases edit with
  | addNode kind start stop parent plain slots level =>
    exact .addNode kind start stop parent plain slots level
  | addFragment name start stop parent free level =>
    exact .addFragment name start stop parent (within.founds free) level
  | relink next same maintains => exact .relink next same maintains
  | rename id old new bound replaces =>
    exact .rename id old new bound (replaces.imp_left within.reshapes)
  | fill id kind plain becomes slots apart =>
    exact .fill id kind plain becomes slots (apart.imp_left within.reshapes)
  | place id owner empty structured => exact .place id owner empty structured
  | own owner block free structured isBlock =>
    exact .own owner block (within.owns free) structured isBlock
  | shorten id f shorter => exact .shorten id f shorter
  | mark block jump sentinel last allowed =>
    exact .mark block jump sentinel last (allowed.imp_right fun marks proper => within.marks _ _ _ (marks proper))
  | absorb owner level start stop free structured onLevel grounded =>
    exact .absorb owner level start stop (within.encloses free) structured onLevel
      (grounded.imp_left within.reshapes)

end GraphEdit

abbrev GraphEdits (rights : Rights) : FlowGraph → FlowGraph → Prop :=
  Relation.ReflTransGen (GraphEdit rights)

theorem GraphEdits.maintains (edits : GraphEdits rights graph next) : Maintains graph next := by
  induction edits with
  | refl => exact .refl graph
  | tail _ edit before => exact before.trans edit.maintains

theorem GraphEdits.mono (within : less.Within rights) (edits : GraphEdits less graph next) :
    GraphEdits rights graph next :=
  edits.lift id fun _ _ => .mono within

theorem GraphEdit.one (edit : GraphEdit rights graph next) : GraphEdits rights graph next :=
  .single edit

/-- A fold whose steps are edits on whatever graph came of the ones before. -/
theorem GraphEdits.foldl {α : Type} {step : FlowGraph → α → FlowGraph} {items : List α}
    (each : ∀ item ∈ items, ∀ next, Grows graph next → GraphEdits rights next (step next item)) :
    GraphEdits rights graph (items.foldl step graph) := by
  induction items generalizing graph with
  | nil => exact .refl
  | cons first rest ih =>
    have head := each first (.head _) graph (.refl graph)
    exact head.trans (ih fun item member next later =>
      each item (.tail _ member) next (head.maintains.grows.trans later))

/-! New nodes -/

structure Marked (rights : Rights) (graph : FlowGraph) (node : Node) (block : NodeId)
    (jump : Instruction) (sentinel : Sentinel) : Prop where
  last : (graph.node block).last? = some jump
  marks : rights.marks block jump sentinel
  start : node.start = jump.address
  stop : node.stop = jump.nextAddress
  kind : node.kind = .sentinel sentinel

theorem Kind.Becomes.sentinel_eq {kind : Kind}
    (becomes : (Kind.sentinel which).Becomes kind) : kind = .sentinel which := by
  cases becomes
  rfl

theorem Kind.Becomes.eq_sentinel {kind : Kind}
    (becomes : kind.Becomes (.sentinel which)) : kind = .sentinel which := by
  cases becomes
  rfl

/-- A node that an edit makes is plain, an empty fragment, or in the place of a jump. -/
theorem GraphEdit.fresh (edit : GraphEdit rights graph next) (outside : graph.size ≤ id) :
    (next.node id).kind.isPlain = true ∨
      (rights.founds ∧ ∃ name, (next.node id).kind = .fragment ⟨name, none, []⟩) ∨
      ∃ block jump sentinel, Marked rights graph (next.node id) block jump sentinel := by
  have absent (same : next.size = graph.size) : (next.node id).kind.isPlain = true := by
    rw [node_of_size_le (same ▸ outside)]
    rfl
  cases edit with
  | addNode kind start stop parent plain _ _ =>
    refine .inl ?_
    rw [node_addNode]
    split
    · exact plain
    · rw [node_of_size_le outside]
      rfl
  | addFragment name start stop parent free _ =>
    rw [node_addNode]
    split
    · exact .inr (.inl ⟨free, name, rfl⟩)
    · rw [node_of_size_le outside]
      exact .inl rfl
  | relink _ same _ => exact .inl (absent same.size)
  | rename other old new _ _ => exact .inl (absent (size_mapKind _))
  | fill other kind _ _ _ _ => exact .inl (absent (size_mapKind _))
  | place other owner _ _ => exact .inl (absent (size_setParent _))
  | own owner block _ _ _ => exact .inl (absent ((size_mapKind _).trans (size_setParent _)))
  | shorten other f _ => exact .inl (absent (size_mapInstructions f))
  | absorb owner level start stop _ _ _ _ => exact .inl (absent (size_absorb owner level start stop))
  | mark block jump sentinel last allowed =>
    rcases (replaceJump_spec last sentinel).2 with same | ⟨grown, parent, becomes⟩
    · exact .inl (absent same)
    · by_cases here : id = graph.size
      · subst here
        by_cases empty : sentinel = .empty
        · refine .inl ?_
          rw [becomes.kind.sentinel_eq, empty]
          rfl
        · exact .inr (.inr ⟨block, jump, sentinel, last, allowed.2 empty, becomes.start, becomes.stop,
            becomes.kind.sentinel_eq⟩)
      · have beyond : (graph.replaceJump block sentinel).1.size ≤ id :=
          grown ▸ Nat.lt_of_le_of_ne outside (Ne.symm here)
        refine .inl ?_
        rw [node_of_size_le beyond]
        rfl

theorem GraphEdit.isBlock_eq (edit : GraphEdit rights graph next) (id : NodeId) :
    (next.node id).kind.isBlock = (graph.node id).kind.isBlock := by
  by_cases inside : id < graph.size
  · exact (edit.maintains.grows.nodes id inside).kind.isBlock
  · have outside : graph.size ≤ id := Nat.le_of_not_lt inside
    rw [node_of_size_le outside]
    rcases edit.fresh outside with plain | ⟨_, _, isFragment⟩ | ⟨_, _, _, marked⟩
    · cases isKind : (next.node id).kind <;> simp_all [Kind.isPlain, Kind.isBlock, Node.absent]
    · rw [isFragment]
      rfl
    · rw [marked.kind]
      rfl

/-! Parents

Only taking nodes in changes the parent of a structure.
-/

theorem parent_mapKind (f : Kind → Kind) (other : NodeId) :
    ((graph.mapKind id f).node other).parent = (graph.node other).parent :=
  field_modify Node.parent (fun node => { node with kind := f node.kind }) (fun _ => rfl) other

theorem parent_mapInstructions (f : List Instruction → List Instruction) (other : NodeId) :
    ((graph.mapInstructions id f).node other).parent = (graph.node other).parent :=
  field_modify Node.parent _ (·.parent_mapInstructions f) other

theorem parent_addNode (kind : Kind) (start stop : Nat) (parent : Option NodeId) (bound : id < graph.size) :
    ((graph.addNode kind start stop parent).node id).parent = (graph.node id).parent := by
  rw [node_addNode, if_neg (Nat.ne_of_lt bound)]

theorem parent_substitute (old new other : NodeId) :
    ((graph.substitute old new).node other).parent = (graph.node other).parent := by
  have moved := (sameCores_movePredecessors graph old new).parent other
  unfold substitute
  dsimp only
  split
  · rw [parent_mapKind, moved]
  · exact moved

theorem parent_replaceJump (block : NodeId) (sentinel : Sentinel) (bound : id < graph.size) :
    ((graph.replaceJump block sentinel).1.node id).parent = (graph.node id).parent := by
  unfold replaceJump
  split
  · rfl
  · next jump _ =>
    have cut : (((graph.popInstruction block).clearSuccessors block).node id).parent = (graph.node id).parent :=
      ((sameCores_clearSuccessors _ block).parent id).trans (parent_mapInstructions _ id)
    have cutSize := size_cutJump graph block
    dsimp only
    generalize (graph.popInstruction block).clearSuccessors block = next at cut cutSize
    split
    · exact cut
    · have marked := parent_addNode (.sentinel sentinel) jump.address jump.nextAddress
        (next.node block).parent (cutSize ▸ bound)
      split
      · rw [parent_substitute, marked, cut]
      · rw [(sameCores_addEdge _ _).parent, marked, cut]

theorem parent_replaceJump_new {jump : Instruction} {block : NodeId} {sentinel : Sentinel}
    (last : (graph.node block).last? = some jump) (proper : sentinel ≠ .empty) :
    ((graph.replaceJump block sentinel).1.node graph.size).parent = (graph.node block).parent := by
  have cut : (((graph.popInstruction block).clearSuccessors block).node block).parent =
      (graph.node block).parent :=
    ((sameCores_clearSuccessors _ block).parent block).trans (parent_mapInstructions _ block)
  simp only [replaceJump, last, ← size_cutJump graph block]
  generalize (graph.popInstruction block).clearSuccessors block = next at cut
  rw [if_neg fun empty => proper empty.1]
  have marked : ((next.addNode (.sentinel sentinel) jump.address jump.nextAddress
      (next.node block).parent).node next.size).parent = (next.node block).parent := by
    rw [node_addNode, if_pos rfl]
  dsimp only
  split
  · rw [parent_substitute, marked, cut]
  · rw [(sameCores_addEdge _ _).parent, marked, cut]

theorem parent_setParent (parent : Option NodeId) (apart : id ≠ other) :
    ((graph.setParent id parent).node other).parent = (graph.node other).parent := by
  rw [setParent, node_modify, if_neg fun here => apart here.1]

/-- Only empty sentinels and blocks that a fragment takes over change their parent, and what a
structure takes in from its own level. -/
theorem GraphEdit.parent_cases (edit : GraphEdit rights graph next) (bound : id < graph.size)
    (proper : (graph.node id).kind ≠ .sentinel .empty)
    (apart : rights.owns → (graph.node id).kind.isBlock = false) :
    (next.node id).parent = (graph.node id).parent ∨
      rights.encloses ∧ ∃ owner, (next.node id).parent = some owner ∧
        (next.node owner).parent = (graph.node id).parent ∧ graph.Encloser owner ∧
        (rights.reshapes ∨ graph.Grounded owner (graph.node id).parent) := by
  cases edit with
  | addNode kind start stop parent _ _ _ => exact .inl (parent_addNode kind start stop parent bound)
  | addFragment name start stop parent _ _ => exact .inl (parent_addNode _ start stop parent bound)
  | relink _ same _ => exact .inl (same.parent id)
  | rename other old new _ _ => exact .inl (parent_mapKind _ id)
  | fill other kind _ _ _ _ => exact .inl (parent_mapKind _ id)
  | place other owner empty _ =>
    refine .inl (parent_setParent _ ?_)
    rintro rfl
    exact proper empty
  | own owner block free _ isBlock =>
    have other : block ≠ id := by
      rintro rfl
      exact absurd (apart free) (by simp [isBlock])
    exact .inl ((parent_mapKind _ id).trans (parent_setParent _ other))
  | shorten other f _ => exact .inl (parent_mapInstructions f id)
  | mark block jump sentinel _ _ => exact .inl (parent_replaceJump block sentinel bound)
  | absorb owner level start stop free structured onLevel grounded =>
    by_cases taken : id < graph.size ∧ id ≠ owner ∧ (graph.node id).parent = level ∧
        (graph.node id).startsWithin start stop
    · refine .inr ⟨free, owner, ?_, ?_, structured, taken.2.2.1 ▸ grounded⟩
      · rw [node_absorb, if_pos taken]
      · rw [node_absorb, if_neg fun other => other.2.1 rfl, onLevel, taken.2.2.1]
    · rw [node_absorb, if_neg taken]
      exact .inl rfl

theorem GraphEdit.parent_eq (edit : GraphEdit rights graph next) (still : ¬rights.encloses)
    (bound : id < graph.size) (proper : (graph.node id).kind ≠ .sentinel .empty)
    (apart : rights.owns → (graph.node id).kind.isBlock = false) :
    (next.node id).parent = (graph.node id).parent :=
  (edit.parent_cases bound proper apart).resolve_right fun taken => still taken.1

/-! Blocks of fragments

Without the right to take blocks over, every fragment keeps its own.
-/

theorem fragmentBlocks_modify (f : Node → Node)
    (fixed : ∀ node, (f node).kind.members = node.kind.members) (other : NodeId) :
    fragmentBlocks (graph.modify id f) other = fragmentBlocks graph other := by
  rw [fragmentBlocks_eq, fragmentBlocks_eq]
  exact field_modify (·.kind.members) f fixed other

theorem SameCores.fragmentBlocks (same : SameCores graph next) (id : NodeId) :
    fragmentBlocks next id = fragmentBlocks graph id := by
  rw [fragmentBlocks_eq, fragmentBlocks_eq, same.kind]

theorem Node.members_mapInstructions (node : Node) (f : List Instruction → List Instruction) :
    (node.mapInstructions f).kind.members = node.kind.members := by
  obtain ⟨start, stop, predecessors, successors, parent, kind⟩ := node
  cases kind <;> rfl

theorem Kind.members_replaceChild (kind : Kind) (old new : NodeId) :
    (kind.replaceChild old new).members = kind.members := by
  cases kind <;> rfl

theorem fragmentBlocks_mapInstructions (f : List Instruction → List Instruction) (other : NodeId) :
    fragmentBlocks (graph.mapInstructions id f) other = fragmentBlocks graph other :=
  fragmentBlocks_modify _ (·.members_mapInstructions f) other

theorem fragmentBlocks_addNode {kind : Kind} (empty : kind.members = []) (start stop : Nat)
    (parent : Option NodeId) (other : NodeId) :
    fragmentBlocks (graph.addNode kind start stop parent) other = fragmentBlocks graph other := by
  rw [fragmentBlocks_eq, fragmentBlocks_eq, node_addNode]
  split
  · next here =>
    rw [here, node_of_size_le (Nat.le_refl _)]
    exact empty
  · rfl

theorem fragmentBlocks_substitute (old new other : NodeId) :
    fragmentBlocks (graph.substitute old new) other = fragmentBlocks graph other := by
  have moved := (sameCores_movePredecessors graph old new).fragmentBlocks other
  unfold substitute
  dsimp only
  split
  · rw [mapKind, fragmentBlocks_modify _ (fun node => node.kind.members_replaceChild old new), moved]
  · exact moved

theorem fragmentBlocks_replaceJump (block : NodeId) (sentinel : Sentinel) (other : NodeId) :
    fragmentBlocks (graph.replaceJump block sentinel).1 other = fragmentBlocks graph other := by
  have cut : fragmentBlocks ((graph.popInstruction block).clearSuccessors block) other =
      fragmentBlocks graph other :=
    ((sameCores_clearSuccessors _ block).fragmentBlocks other).trans (fragmentBlocks_mapInstructions _ other)
  unfold replaceJump
  split
  · rfl
  · dsimp only
    generalize (graph.popInstruction block).clearSuccessors block = next at cut
    split
    · exact cut
    · split
      · rw [fragmentBlocks_substitute, fragmentBlocks_addNode rfl, cut]
      · rw [(sameCores_addEdge _ _).fragmentBlocks, fragmentBlocks_addNode rfl, cut]

theorem Kind.members_of_isPlain {kind : Kind} (plain : kind.isPlain = true) : kind.members = [] := by
  cases kind with
  | fragment parts => exact absurd plain Bool.false_ne_true
  | _ => rfl

theorem GraphEdit.fragmentBlocks_eq (edit : GraphEdit rights graph next) (settled : ¬rights.owns)
    (other : NodeId) : fragmentBlocks next other = fragmentBlocks graph other := by
  cases edit with
  | addNode kind start stop parent plain _ _ =>
    exact fragmentBlocks_addNode (Kind.members_of_isPlain plain) start stop parent other
  | addFragment name start stop parent _ _ => exact fragmentBlocks_addNode rfl start stop parent other
  | own _ _ free _ _ => exact absurd free settled
  | relink _ same _ => exact same.fragmentBlocks other
  | rename id old new _ _ => exact fragmentBlocks_modify _ (·.kind.members_replaceChild old new) other
  | fill id kind plain becomes _ _ =>
    rw [FlowGraph.fragmentBlocks_eq, FlowGraph.fragmentBlocks_eq, mapKind, node_modify]
    split
    · next here =>
      rw [← here.1]
      generalize (graph.node id).kind = before at becomes
      cases becomes with
      | fragment _ => exact absurd plain Bool.false_ne_true
      | _ => rfl
    · rfl
  | place id owner _ _ =>
    exact fragmentBlocks_modify ({ · with parent := some owner }) (fun _ => rfl) other
  | shorten id f _ => exact fragmentBlocks_mapInstructions f other
  | mark block jump sentinel _ _ => exact fragmentBlocks_replaceJump block sentinel other
  | absorb owner level start stop _ _ _ _ =>
    rw [FlowGraph.fragmentBlocks_eq, FlowGraph.fragmentBlocks_eq, node_absorb]
    split <;> rfl

/-! Instructions taken out -/

theorem shorten_isPrefix {f : List Instruction → List Instruction}
    (shorter : ∀ instructions, f instructions <+: instructions) :
    GraphEdits rights graph (graph.mapInstructions id f) :=
  (GraphEdit.shorten id f (.of_isPrefix (shorter _))).one

theorem edits_shiftInstruction
    (discards : ∀ first, (graph.node id).instructions.head? = some first → first.opcode = .popz) :
    GraphEdits rights graph (graph.shiftInstruction id) := by
  refine (GraphEdit.shorten id _ ?_).one
  cases starts : (graph.node id).instructions with
  | nil => exact .refl _
  | cons first rest =>
    rw [starts] at discards
    exact ⟨[first], [], by simp, by simpa using discards first rfl⟩

theorem dropDiscard_or (graph : FlowGraph) (block : NodeId) : dropDiscard graph block = graph ∨
    (∀ first, (graph.node block).instructions.head? = some first → first.opcode = .popz) ∧
      dropDiscard graph block = graph.shiftInstruction block := by
  unfold dropDiscard
  split
  · next inst isFirst =>
    split
    · next discards => exact .inr ⟨fun first same => Option.some.inj (isFirst.symm.trans same) ▸ discards, rfl⟩
    · exact .inl rfl
  · exact .inl rfl

theorem instructions_mapInstructions_of_ne (f : List Instruction → List Instruction) (apart : id ≠ other) :
    ((graph.mapInstructions id f).node other).instructions = (graph.node other).instructions := by
  rw [mapInstructions, node_modify, if_neg fun here => apart here.1]

theorem instructions_dropInstructions (count : Nat) (other : NodeId) :
    ((graph.dropInstructions id count).node other).instructions <+: (graph.node other).instructions := by
  rw [dropInstructions, mapInstructions, node_modify]
  split
  · obtain ⟨start, stop, predecessors, successors, parent, kind⟩ := graph.node other
    cases kind with
    | block parts => exact List.take_prefix _ _
    | _ => exact List.prefix_rfl
  · exact List.prefix_rfl

/-! Edges made, led elsewhere or taken out -/

theorem edits_addEdge {source target : NodeId} (sourceBound : source < graph.size)
    (targetBound : target < graph.size) : GraphEdits rights graph (graph.addEdge source target) :=
  (GraphEdit.addEdge source target sourceBound targetBound).one

theorem sameCores_dropSecondEdge (graph : FlowGraph) (id : NodeId) :
    SameCores graph (graph.dropSecondEdge id) := by
  unfold dropSecondEdge
  split
  · exact sameCores_removeEdge graph id _
  · exact .refl graph

theorem edits_dropSecondEdge (graph : FlowGraph) (id : NodeId) :
    GraphEdits rights graph (graph.dropSecondEdge id) := by
  unfold dropSecondEdge
  split
  · exact (GraphEdit.removeEdge _ _).one
  · exact .refl

theorem edits_substitute {old new : NodeId} (bound : new < graph.size)
    (replaces : rights.reshapes ∨ ∀ id, (graph.node old).parent = some id → graph.Replaces id old new) :
    GraphEdits rights graph (graph.substitute old new) := by
  have moved : GraphEdits rights graph (graph.movePredecessors old new) :=
    (GraphEdit.movePredecessors old new bound).one
  unfold substitute
  dsimp only
  split
  · next id isParent =>
    have same := sameCores_movePredecessors graph old new
    refine moved.tail (.rename id old new (moved.maintains.grows.lt bound) (replaces.imp_right fun known => ?_))
    have known := known id ((same.parent old).symm.trans isParent)
    rwa [Replaces, same.kind, same.kind, same.kind, same.start, same.start]
  · exact moved

/-! Edges between the labels of a switch -/

theorem edits_linkNodes (labels : List NodeId) (graph : FlowGraph)
    (bounds : ∀ label ∈ labels, label < graph.size) : GraphEdits rights graph (linkNodes graph labels) := by
  induction labels generalizing graph with
  | nil => exact .refl
  | cons first rest ih =>
    cases rest with
    | nil => exact .refl
    | cons second rest =>
      have edge : GraphEdit rights graph (graph.addEdge first second) :=
        .addEdge first second (bounds first (by simp)) (bounds second (by simp))
      refine .head edge (ih _ fun label member => ?_)
      exact edge.maintains.grows.lt (bounds label (.tail _ member))

theorem edits_linkBreaks {heads : List (Nat × NodeId)} {breaks : List NodeId}
    (headBounds : ∀ head ∈ heads, head.2 < graph.size)
    (breakBounds : ∀ breakNode ∈ breaks, breakNode < graph.size) :
    GraphEdits rights graph (breaks.foldl (linkBreak heads) graph) := by
  refine .foldl fun breakNode member next later => ?_
  unfold linkBreak
  split
  · next head found =>
    exact (GraphEdit.addEdge breakNode head.2 (later.lt (breakBounds breakNode member))
      (later.lt (headBounds head (List.mem_of_find?_eq_some found)))).one
  · exact .refl

theorem edits_detachExit (sound : graph.Sound) (level : Option NodeId) (location : SwitchLocation)
    (exitLabel : Option NodeId) (exit : NodeId) (bound : ∀ label, exitLabel = some label → label < graph.size) :
    GraphEdits rights graph (detachExit graph level location exitLabel exit) := by
  refine .foldl fun source member next later => ?_
  have inside := sound.edges.source_lt (List.mem_filter.mp member).1
  have cut : GraphEdit rights next (next.removeEdge source exit) := .removeEdge source exit
  dsimp only
  split
  · next label =>
    exact .tail cut.one (.addEdge source label (cut.maintains.grows.lt (later.lt inside))
      (cut.maintains.grows.lt (later.lt (bound label rfl))))
  · exact cut.one

end Structuring.FlowGraph
