import Structuring.Proofs.Fanout.Room
import Structuring.Proofs.Slots.Contents

/-! Structures from being made to being closed.

A structure is made on a level, with nodes of that level in its slots, and then takes in what starts
in its range. From then on whatever is in a slot is inside the structure, at some depth, unless it
started outside the range when the structure was made.
-/

namespace Structuring

open Bytecode Recovery FlowGraph

variable {rights : Rights} {target old new : NodeId} {kind : Kind}
  {start stop : Nat}

namespace FlowGraph

variable {graph next final : FlowGraph} {id owner ref top : NodeId} {level : Option NodeId}
  {view : Option NodeId → Option NodeId} {slot : Slot}

/-! The order of structures -/

def Enters (graph : FlowGraph) (outer inner : NodeId) : Prop :=
  graph.Owner inner ∧ ((graph.node inner).parent = some outer ∨
    (Slot.tail, inner) ∈ (graph.node outer).kind.slots ∨
    (Slot.condition, inner) ∈ (graph.node outer).kind.slots)

def Ordered (graph : FlowGraph) : Prop := ∀ id, ¬Relation.TransGen graph.Enters id id

theorem Ordered.mono (ordered : graph.Ordered)
    (fewer : ∀ one other, next.Enters one other → graph.Enters one other) : next.Ordered :=
  fun id cycle => ordered id (Relation.TransGen.mono fewer id id cycle)

theorem Refills.enters (refills : Refills graph next) {one other : NodeId}
    (enters : next.Enters one other) : graph.Enters one other := by
  obtain ⟨owner, enters⟩ := enters
  have old := refills.owner other owner
  have parent := refills.parent other old.lt
  refine ⟨old, ?_⟩
  rcases enters with inside | tail | condition
  · exact .inl (parent.symm.trans inside)
  · rcases refills.slots one .tail other tail with kept | inside
    · exact .inr (.inl kept)
    · exact .inl (parent.symm.trans inside)
  · rcases refills.slots one .condition other condition with kept | inside
    · exact .inr (.inr kept)
    · exact .inl (parent.symm.trans inside)

end FlowGraph

/-- A node that is entered from one other only, and leads only to what that one leads to, makes no
cycle. -/
theorem acyclic_of_collapse {α : Type} {before after : α → α → Prop} {owner : α} {level : Option α}
    (apart : ∀ one other, one ≠ owner → other ≠ owner → after one other → before one other)
    (into : ∀ one, after one owner → level = some one)
    (out : ∀ other, after owner other → other ≠ owner ∧ ∀ one, level = some one → before one other)
    (acyclic : ∀ one, ¬Relation.TransGen before one one) (one : α) : ¬Relation.TransGen after one one := by
  have collapse (start finish : α) (path : Relation.TransGen after start finish)
      (proper : finish ≠ owner) : (start ≠ owner → Relation.TransGen before start finish) ∧
        (start = owner → ∀ around, level = some around → Relation.TransGen before around finish) := by
    induction path using Relation.TransGen.head_induction_on with
    | @single start step =>
      constructor
      · exact fun other => .single (apart start finish other proper step)
      · rintro rfl around isLevel
        exact .single ((out finish step).2 around isLevel)
    | @head start middle step _ ih =>
      constructor
      · intro other
        by_cases inner : middle = owner
        · exact ih.2 inner start (into start (inner ▸ step))
        · exact .head (apart start middle other inner step) (ih.1 inner)
      · rintro rfl around isLevel
        obtain ⟨inner, leads⟩ := out middle step
        exact .head (leads around isLevel) (ih.1 inner)
  intro cycle
  by_cases here : one = owner
  · subst here
    -- The last step of the cycle comes from the level, which the rest of it leads back to.
    obtain ⟨around, rest, last⟩ := Relation.TransGen.tail'_iff.mp cycle
    have proper : around ≠ one := by
      rintro rfl
      exact (out around last).1 rfl
    rcases Relation.reflTransGen_iff_eq_or_transGen.mp rest with same | path
    · exact proper same
    · exact acyclic around ((collapse one around path proper).2 rfl around (into around last))
  · exact acyclic one ((collapse one one cycle here).1 here)

namespace FlowGraph

variable {graph next final : FlowGraph} {owner ref : NodeId} {level : Option NodeId}
  {view : Option NodeId → Option NodeId} {slot : Slot} {every : Prop}

/-! Graphs between structures -/

/-- What holds of a graph whenever no structure is being built: structures are ordered, blocks (or all
nodes) lead to their own level only, and what is in a slot belongs there. -/
structure Tidy (every : Prop) (graph : FlowGraph) : Prop where
  ordered : graph.Ordered
  stays : graph.Stays every id
  belongs : ∀ id slot ref, (slot, ref) ∈ (graph.node id).kind.slots → graph.Belongs id slot ref

structure Tends (view : Option NodeId → Option NodeId) (graph next : FlowGraph) : Prop where
  relinks : Relinks view graph next
  edits : GraphEdits .full graph next
  refills : Refills graph next

theorem Clips.thins (clips : Clips rights graph next) :
    Thins graph next := by
  induction clips with
  | refl => exact .refl graph
  | tail _ clip ih =>
    cases clip with
    | strip id f _ => exact fun limit slim => (ih limit slim).mapInstructions_clear id f
    | halve id f _ => exact fun limit slim =>
      (ih limit slim).dropSecondEdge (.mapInstructions _ id f) (sameEdges_mapInstructions f)
    | shift id discards => exact ih.eases (.shiftInstruction discards)
    | cut source target => exact ih.eases (.removeEdge _ source target)
    | clear id => exact ih.eases (.clearSuccessors _ id)
    | mark block sentinel _ => exact fun limit slim => (ih limit slim).replaceJump block sentinel

namespace Tends

theorem refl (graph : FlowGraph) : Tends view graph graph := ⟨.refl graph, .refl, .refl graph⟩

theorem trans (first : Tends view graph next) (second : Tends view next final) :
    Tends view graph final :=
  ⟨first.relinks.trans second.relinks, first.edits.trans second.edits,
    first.refills.trans second.refills⟩

theorem of_clip (clip : Clip rights graph next) :
    Tends view graph next := by
  refine ⟨?_, clip.edits.mono rights.settled.within_full, ?_⟩
  · cases clip with
    | strip id f _ => exact (Relinks.mapInstructions graph id f).trans (.clearSuccessors _ id)
    | halve id f _ =>
      refine (Relinks.mapInstructions graph id f).trans ?_
      unfold dropSecondEdge
      split
      · exact .removeEdge _ id _
      · exact .refl _
    | shift id _ => exact .mapInstructions graph id _
    | cut source target => exact .removeEdge graph source target
    | clear id => exact .clearSuccessors graph id
    | mark block sentinel _ => exact .replaceJump graph block sentinel
  · cases clip with
    | strip id f _ =>
      exact (Refills.mapInstructions graph id f).trans (.of_sameCores (sameCores_clearSuccessors _ id))
    | halve id f _ =>
      exact (Refills.mapInstructions graph id f).trans (.of_sameCores (sameCores_dropSecondEdge _ id))
    | shift id _ => exact .mapInstructions graph id _
    | cut source target => exact .of_sameCores (sameCores_removeEdge graph source target)
    | clear id => exact .of_sameCores (sameCores_clearSuccessors graph id)
    | mark block sentinel _ => exact .replaceJump graph block sentinel

theorem addEdge {source : NodeId} (leaves : graph.OnLevel view level source)
    (enters : graph.OnLevel view level target) : Tends view graph (graph.addEdge source target) :=
  ⟨.addEdge leaves enters, edits_addEdge leaves.bound enters.bound,
    .of_sameCores (sameCores_addEdge source target)⟩

theorem movePredecessors (onLevel : graph.OnLevel view level old)
    (replaces : graph.OnLevel view level new) : Tends view graph (graph.movePredecessors old new) :=
  ⟨.movePredecessors onLevel replaces, (GraphEdit.movePredecessors old new replaces.bound).one,
    .of_sameCores (sameCores_movePredecessors graph old new)⟩

theorem substitute (bound : new < graph.size) (oldBound : old < graph.size)
    (same : (graph.node new).parent = (graph.node old).parent) : Tends view graph (graph.substitute old new) :=
  ⟨.substitute ⟨oldBound, rfl⟩ ⟨bound, congrArg view same⟩, edits_substitute bound (.inl trivial), .substitute same⟩

theorem addNode (graph : FlowGraph) {parent : Option NodeId}
    (plain : kind.isPlain = true) (leaf : kind.isStructure = false) (isLevel : graph.IsLevel parent) :
    Tends view graph (graph.addNode kind start stop parent) := by
  refine ⟨.addNode graph kind start stop parent, ?_, .addNode graph start stop parent leaf⟩
  refine (GraphEdit.addNode kind start stop parent plain ?_ isLevel).one
  cases kind with
  | block _ | caseJump | caseLabel _ | sentinel _ => exact List.forall_mem_nil _
  | _ => exact absurd leaf (by simp [Kind.isStructure])

theorem isBlock_eq (tends : Tends view graph next) (id : NodeId) :
    (next.node id).kind.isBlock = (graph.node id).kind.isBlock := by
  have edits := tends.edits
  clear tends
  induction edits with
  | refl => rfl
  | tail _ edit ih => exact (edit.isBlock_eq id).trans ih

theorem onLevel (tends : Tends view graph next) {node : NodeId}
    (onLevel : graph.OnLevel view level node) : next.OnLevel view level node :=
  tends.relinks.onLevel onLevel

theorem foldl {α : Type} {step : FlowGraph → α → FlowGraph} {items : List α}
    (each : ∀ item ∈ items, ∀ next, Tends view graph next → Tends view next (step next item)) :
    Tends view graph (items.foldl step graph) :=
  List.foldlRecOn (motive := Tends view graph) items step (.refl graph) fun next kept item member =>
    kept.trans (each item member next kept)

theorem sound (tends : Tends view graph next) (sound : graph.Sound) : next.Sound :=
  tends.edits.maintains.sound sound

theorem grows (tends : Tends view graph next) : Grows graph next := tends.edits.maintains.grows

theorem stays (tends : Tends view graph next) (sound : graph.Sound) (stays : graph.Stays every view) :
    next.Stays every view := by
  intro id counts strays
  rw [tends.isBlock_eq] at counts
  exact stays id counts (tends.relinks.strays sound.edges id strays)

/-- A slot that is there after a step belongs to its structure if it did before. -/
theorem belongs (tends : Tends view graph next) (sound : graph.Sound) {id : NodeId}
    (belongs : ∀ slot ref, (slot, ref) ∈ (graph.node id).kind.slots → graph.Belongs id slot ref)
    (member : (slot, ref) ∈ (next.node id).kind.slots) : next.Belongs id slot ref := by
  rcases tends.refills.slots id slot ref member with old | inside
  · have bound := sound.lt_of_mem_slots old
    apply (belongs slot ref old).congr sound tends.grows (owner_of_mem_slots old).lt bound
    · exact fun outer inside => .inl ((tends.refills.parent ref bound).trans inside)
    · exact fun top node _ bound _ => below_congr tends.refills.parent sound bound
  · exact .direct inside

theorem tidy (tends : Tends id graph next) (sound : graph.Sound) (tidy : graph.Tidy every) : next.Tidy every :=
  ⟨tidy.ordered.mono fun _ _ => tends.refills.enters, tends.stays sound tidy.stays,
    fun id _ _ => tends.belongs sound (tidy.belongs id)⟩

end Tends

theorem Clips.tends (clips : Clips rights graph next)
    (view : Option NodeId → Option NodeId) : Tends view graph next := by
  induction clips with
  | refl => exact .refl graph
  | tail _ clip ih => exact ih.trans (.of_clip clip)

/-! Structures that are being built -/

inductive Prepared (graph : FlowGraph) (owner : NodeId) (level : Option NodeId) (slot : Slot)
    (ref : NodeId) : Prop
  | made (inside : (graph.node ref).parent = some owner)
  | beside (onLevel : (graph.node ref).parent = level)
      (fits : slot.isLoose = true ∨
        (graph.node ref).startsWithin (graph.node owner).start (graph.node owner).stop = true)
  | named (names : slot.namesBlock = true) (below : graph.Below level ref)
  | elsewhere {fragment : NodeId} (isBreak : slot = .breakBlock) (isLevel : level = some fragment)
      (isFragment : ∃ parts, (graph.node fragment).kind = .fragment parts)
      (apart : ¬graph.Below level ref)

theorem Prepared.congr (prepared : graph.Prepared owner level slot ref) (sound : graph.Sound)
    (grows : Grows graph next) (parent : ∀ id < graph.size, (next.node id).parent = (graph.node id).parent)
    (isLevel : graph.IsLevel level) (ownerBound : owner < graph.size) (bound : ref < graph.size) :
    next.Prepared owner level slot ref := by
  have becomes := grows.nodes owner ownerBound
  cases prepared with
  | made inside => exact .made ((parent ref bound).trans inside)
  | beside onLevel fits =>
    refine .beside ((parent ref bound).trans onLevel) ?_
    rwa [becomes.start, becomes.stop, (grows.nodes ref bound).startsWithin]
  | named names inner => exact .named names ((below_congr parent sound bound).mpr inner)
  | elsewhere isBreak isFragmentLevel isFragment apart =>
    refine .elsewhere isBreak isFragmentLevel ?_ fun inner => apart ((below_congr parent sound bound).mp inner)
    exact (grows.nodes _ (isLevel _ isFragmentLevel).lt).kind.fragment_iff.mpr isFragment

/-- A graph with a structure on a level that has not taken anything in yet. Everything else is in
order, only the level refers to the structure, and nothing else refers to what was made for it. -/
structure Rising (every : Prop) (graph : FlowGraph) (owner : NodeId) (level : Option NodeId) : Prop where
  sound : graph.Sound
  rooted : graph.Rooted
  ordered : graph.Ordered
  stays : graph.Stays every (merged owner level)
  belongs : ∀ id, id ≠ owner → ∀ slot ref, (slot, ref) ∈ (graph.node id).kind.slots →
    graph.Belongs id slot ref ∧ (graph.node ref).parent ≠ some owner
  structured : graph.Encloser owner
  placed : (graph.node owner).parent = level
  named : ∀ id slot, (slot, owner) ∈ (graph.node id).kind.slots → level = some id
  childless : ∀ id, graph.Owner id → (graph.node id).parent ≠ some owner
  newest : ∀ id, graph.Owner id → id ≤ owner
  parts : ∀ slot ref, (slot, ref) ∈ (graph.node owner).kind.slots → graph.Prepared owner level slot ref

structure Spares (graph next : FlowGraph) : Prop where
  edits : GraphEdits .full graph next
  old : ∀ id < graph.size, next.node id = graph.node id
  leaves : ∀ id, graph.size ≤ id → ¬next.Owner id
  edgeless : ∀ id, graph.size ≤ id → (next.node id).successors = []

structure Extends (graph next : FlowGraph) (owner : NodeId) (level : Option NodeId) : Prop where
  edits : GraphEdits .full graph next
  old : ∀ id < graph.size, next.node id = graph.node id
  fresh : graph.size ≤ owner
  isLevel : graph.IsLevel level
  structured : next.Encloser owner
  placed : (next.node owner).parent = level
  leaves : ∀ id, graph.size ≤ id → id ≠ owner → ¬next.Owner id
  edgeless : ∀ id, graph.size ≤ id → (next.node id).successors = []

structure Raises (graph next : FlowGraph) (owner : NodeId) (level : Option NodeId) : Prop
    extends Extends graph next owner level where
  parts : ∀ slot ref, (slot, ref) ∈ (next.node owner).kind.slots →
    ref ≠ owner ∧ next.Prepared owner level slot ref

theorem Tends.keepsNesting (tends : Tends view graph next) (sound : graph.Sound) : KeepsNesting graph next :=
  ⟨tends.grows, fun _ _ _ bound => below_congr tends.refills.parent sound bound⟩

/-- A graph has gained one structure, and what was there is where it was. -/
structure Gains (graph next : FlowGraph) (owner : NodeId) : Prop where
  grows : Grows graph next
  fresh : graph.size ≤ owner
  parent : ∀ id < graph.size, (next.node id).parent = (graph.node id).parent
  only : ∀ id, graph.size ≤ id → next.Owner id → id = owner

namespace Gains

variable (gains : Gains graph next owner)

include gains

theorem tends (tends : Tends view next final) : Gains graph final owner where
  grows := gains.grows.trans tends.grows
  fresh := gains.fresh
  parent := by
    intro id bound
    rw [tends.refills.parent id (gains.grows.lt bound)]
    exact gains.parent id bound
  only id outside isOwner := gains.only id outside (tends.refills.owner id isOwner)

theorem mapKind {f : Kind → Kind} (becomes : (next.node owner).kind.Becomes (f (next.node owner).kind)) :
    Gains graph (next.mapKind owner f) owner where
  grows := gains.grows.trans (.of_modify _ ⟨rfl, rfl, becomes⟩)
  fresh := gains.fresh
  parent := by
    intro id bound
    rw [parent_mapKind]
    exact gains.parent id bound
  only := by
    intro id outside isOwner
    by_cases same : id = owner
    · exact same
    · rw [Owner, FlowGraph.mapKind, node_modify, if_neg fun here => same here.1.symm] at isOwner
      exact gains.only id outside isOwner

end Gains

namespace Spares

theorem refl (graph : FlowGraph) : Spares graph graph := by
  refine ⟨.refl, fun _ _ => rfl, fun id outside owner => ?_, fun id outside => ?_⟩
  · exact Nat.not_le_of_lt owner.lt outside
  · rw [node_of_size_le outside]
    rfl

variable (spares : Spares graph next)

include spares

theorem size_le : graph.size ≤ next.size := spares.edits.maintains.grows.size

theorem addEmpty (start stop : Nat) :
    Spares graph (next.addNode (.sentinel .empty) start stop none) where
  edits := spares.edits.tail (.addNode _ start stop none rfl
    (List.forall_mem_nil _) fun _ same => absurd same (by simp))
  old := by
    intro id bound
    rw [node_addNode, if_neg (Nat.ne_of_lt (Nat.lt_of_lt_of_le bound spares.size_le))]
    exact spares.old id bound
  leaves := by
    intro id fresh owner
    rw [Owner, node_addNode] at owner
    split at owner
    · exact absurd owner (by simp [Kind.isStructure])
    · exact spares.leaves id fresh owner
  edgeless := by
    intro id fresh
    rw [(sameEdges_addNode _ start stop none).successors]
    exact spares.edgeless id fresh

theorem trans (more : Spares next final) : Spares graph final where
  edits := spares.edits.trans more.edits
  old := by
    intro id bound
    rw [more.old id (Nat.lt_of_lt_of_le bound spares.size_le)]
    exact spares.old id bound
  leaves := by
    intro id fresh owner
    by_cases bound : id < next.size
    · rw [Owner, more.old id bound] at owner
      exact spares.leaves id fresh owner
    · exact more.leaves id (Nat.le_of_not_lt bound) owner
  edgeless := by
    intro id fresh
    by_cases bound : id < next.size
    · rw [more.old id bound]
      exact spares.edgeless id fresh
    · exact more.edgeless id (Nat.le_of_not_lt bound)

theorem addStructure (plain : kind.isPlain = true)
    (structured : kind.isStructure = true) (slots : ∀ ref ∈ kind.references, ref < next.size)
    (isLevel : graph.IsLevel level) :
    Extends graph (next.addNode kind start stop level) next.size level where
  edits := spares.edits.tail (.addNode kind start stop level plain slots fun id same =>
    spares.edits.maintains.grows.owner (isLevel id same))
  old := by
    intro id bound
    rw [node_addNode, if_neg (Nat.ne_of_lt (Nat.lt_of_lt_of_le bound spares.size_le))]
    exact spares.old id bound
  fresh := spares.size_le
  isLevel := isLevel
  structured := .of_kind (by rw [node_addNode, if_pos rfl]) structured plain
  placed := by rw [node_addNode, if_pos rfl]
  leaves := by
    intro id fresh apart owner
    rw [Owner, node_addNode, if_neg apart] at owner
    exact spares.leaves id fresh owner
  edgeless := by
    intro id fresh
    rw [(sameEdges_addNode kind start stop level).successors]
    exact spares.edgeless id fresh

end Spares

namespace Extends

variable (extended : Extends graph next owner level)

include extended

theorem lt_owner {id : NodeId} (bound : id < graph.size) : id ≠ owner :=
  Nat.ne_of_lt (Nat.lt_of_lt_of_le bound extended.fresh)

theorem onLevel {id : NodeId} {view : Option NodeId → Option NodeId} {seen : Option NodeId}
    (onLevel : graph.OnLevel view seen id) : next.OnLevel view seen id := by
  refine ⟨Nat.lt_of_lt_of_le onLevel.bound extended.edits.maintains.grows.size, ?_⟩
  rw [extended.old id onLevel.bound]
  exact onLevel.level

theorem level_ne : level ≠ some owner := by
  intro same
  exact Nat.not_le_of_lt (extended.isLevel owner same).lt extended.fresh

theorem thins : Thins graph next := by
  intro limit slim id
  by_cases bound : id < graph.size
  · rw [extended.old id bound]
    exact slim id
  · rw [extended.edgeless id (Nat.le_of_not_lt bound)]
    exact Nat.zero_le _

theorem idle : next.Idle owner := by
  refine ⟨extended.edgeless owner extended.fresh, fun limit => ?_⟩
  have structured : (next.node owner).kind.isStructure = true := extended.structured.owner
  cases isKind : (next.node owner).kind with
  | block _ | caseJump | caseLabel _ | sentinel _ =>
    rw [isKind] at structured
    exact absurd structured (by simp [Kind.isStructure])
  | _ => exact Nat.one_pos

theorem thins_replace (old target : NodeId) : Thins graph (next.substitute old owner) ∧
    Thins graph ((next.substitute old owner).addEdge owner target) := by
  have moves : Eases next (next.substitute old owner) := .substitute next old owner
  have thins := extended.thins.eases moves
  exact ⟨thins, thins.addEdge (extended.idle.eases moves) target⟩

theorem gains : Gains graph next owner where
  grows := extended.edits.maintains.grows
  fresh := extended.fresh
  parent id bound := congrArg Node.parent (extended.old id bound)
  only id outside isOwner := by
    by_cases same : id = owner
    · exact same
    · exact absurd isOwner (extended.leaves id outside same)

theorem place {id : NodeId} (fresh : graph.size ≤ id) (empty : (next.node id).kind = .sentinel .empty) :
    Extends graph (next.setParent id (some owner)) owner level := by
  have apart : id ≠ owner := by
    rintro rfl
    have structured := extended.structured.owner
    rw [Owner, empty] at structured
    exact absurd structured (by simp [Kind.isStructure])
  have kind (other : NodeId) : ((next.setParent id (some owner)).node other).kind = (next.node other).kind := by
    rw [setParent, node_modify]
    split <;> rfl
  refine ⟨extended.edits.tail (.place id owner empty extended.structured.owner), ?_, extended.fresh,
    extended.isLevel, ?_, ?_, ?_, ?_⟩
  · intro other bound
    rw [setParent, node_modify, if_neg ?_]
    · exact extended.old other bound
    · rintro ⟨rfl, _⟩
      exact Nat.not_le_of_lt bound fresh
  · exact .of_kind (kind owner) extended.structured.owner extended.structured.plain
  · rw [parent_setParent _ apart]
    exact extended.placed
  · intro other new apart
    rw [Owner, kind]
    exact extended.leaves other new apart
  · intro other new
    rw [(sameEdges_setParent _).successors]
    exact extended.edgeless other new

end Extends

/-- A structure is made by itself, with nodes of its level in its slots. -/
theorem raises_addNode (plain : kind.isPlain = true)
    (structured : kind.isStructure = true) (isLevel : graph.IsLevel level)
    (parts : ∀ slot ref, (slot, ref) ∈ kind.slots → ref < graph.size ∧
      (graph.node ref).parent = level ∧ slot.isLoose = true) :
    Raises graph (graph.addNode kind start stop level) graph.size level := by
  have extended : Extends graph (graph.addNode kind start stop level) graph.size level := by
    apply (Spares.refl graph).addStructure plain structured _ isLevel
    intro ref member
    obtain ⟨slot, member⟩ := Kind.exists_slot_of_mem_references plain member
    exact (parts slot ref member).1
  refine ⟨extended, fun slot ref member => ?_⟩
  rw [node_addNode, if_pos rfl] at member
  obtain ⟨bound, onLevel, loose⟩ := parts slot ref member
  refine ⟨Nat.ne_of_lt bound, .beside ?_ (.inl loose)⟩
  rw [extended.old ref bound]
  exact onLevel

namespace Raises

variable (raises : Raises graph next owner level)

include raises

theorem parent_ne (sound : graph.Sound) {id : NodeId} (bound : id < graph.size) :
    (next.node id).parent ≠ some owner := by
  intro inside
  rw [raises.old id bound] at inside
  exact Nat.not_le_of_lt (sound.parents id owner inside).lt raises.fresh

theorem lt_of_owner {id : NodeId} (structured : next.Owner id) (apart : id ≠ owner) : id < graph.size :=
  Nat.lt_of_not_le fun fresh => raises.leaves id fresh apart structured

theorem ordered (sound : graph.Sound) (ordered : graph.Ordered) : next.Ordered := by
  refine @acyclic_of_collapse _ graph.Enters next.Enters owner level ?_ ?_ ?_ ordered
  · rintro outer inner outerApart innerApart ⟨structured, enters⟩
    have bound := raises.lt_of_owner structured innerApart
    rw [Owner, raises.old inner bound] at structured
    rw [raises.old inner bound] at enters
    refine ⟨structured, enters.imp id (Or.imp ?_ ?_)⟩
    all_goals
      intro member
      rwa [raises.old outer (raises.lt_of_owner (owner_of_mem_slots member) outerApart)] at member
  · rintro outer ⟨_, enters⟩
    have unnamed (slot : Slot) : (slot, owner) ∉ (next.node outer).kind.slots := by
      intro member
      by_cases here : outer = owner
      · exact (raises.parts slot owner (here ▸ member)).1 rfl
      · rw [raises.old outer (raises.lt_of_owner (owner_of_mem_slots member) here)] at member
        exact Nat.not_le_of_lt (sound.lt_of_mem_slots member) raises.fresh
    rcases enters with inside | tail | condition
    · exact raises.placed.symm.trans inside
    · exact absurd tail (unnamed _)
    · exact absurd condition (unnamed _)
  · rintro inner ⟨structured, enters⟩
    have fromSlot (slot : Slot) (single : slot.namesBlock = false)
        (member : (slot, inner) ∈ (next.node owner).kind.slots) :
        inner ≠ owner ∧ ∀ outer, level = some outer → graph.Enters outer inner := by
      obtain ⟨apart, prepared⟩ := raises.parts slot inner member
      have bound := raises.lt_of_owner structured apart
      refine ⟨apart, fun outer isLevel => ?_⟩
      rw [Owner, raises.old inner bound] at structured
      cases prepared with
      | made inside => exact absurd inside (raises.parent_ne sound bound)
      | beside onLevel _ =>
        rw [raises.old inner bound, isLevel] at onLevel
        exact ⟨structured, .inl onLevel⟩
      | named names _ => exact absurd (single.symm.trans names) (by simp)
      | elsewhere isBreak _ _ _ => exact absurd single (by simp [isBreak, Slot.namesBlock])
    rcases enters with inside | tail | condition
    · by_cases here : inner = owner
      · rw [here, raises.placed] at inside
        exact absurd inside raises.toExtends.level_ne
      · exact absurd inside (raises.parent_ne sound (raises.lt_of_owner structured here))
    · exact fromSlot .tail rfl tail
    · exact fromSlot .condition rfl condition

/-- A structure that is made in a tidy graph is ready to take nodes in. -/
theorem rising (sound : graph.Sound) (rooted : graph.Rooted) (tidy : graph.Tidy every) :
    next.Rising every owner level where
  sound := raises.edits.maintains.sound sound
  rooted := raises.edits.rooted sound rooted
  ordered := raises.ordered sound tidy.ordered
  structured := raises.structured
  placed := raises.placed
  parts := fun slot ref member => (raises.parts slot ref member).2
  stays := by
    rintro id counts ⟨target, member, apart⟩
    by_cases bound : id < graph.size
    · rw [raises.old id bound] at counts member apart
      rw [raises.old target (sound.edges.target_lt member)] at apart
      exact tidy.stays id counts ⟨target, member, fun same => apart (congrArg _ same)⟩
    · rw [raises.edgeless id (Nat.le_of_not_lt bound)] at member
      cases member
  belongs := by
    intro id apart slot ref member
    have bound := raises.lt_of_owner (owner_of_mem_slots member) apart
    rw [raises.old id bound] at member
    have refBound := sound.lt_of_mem_slots member
    refine ⟨?_, raises.parent_ne sound refBound⟩
    have parent (id : NodeId) (bound : id < graph.size) : (next.node id).parent = (graph.node id).parent := by
      rw [raises.old id bound]
    apply (tidy.belongs id slot ref member).congr sound raises.edits.maintains.grows bound refBound
    · exact fun outer inside => .inl ((parent ref refBound).trans inside)
    · exact fun top node _ bound _ => below_congr parent sound bound
  named := by
    intro id slot member
    by_cases here : id = owner
    · exact absurd rfl (raises.parts slot owner (here ▸ member)).1
    · rw [raises.old id (raises.lt_of_owner (owner_of_mem_slots member) here)] at member
      exact absurd raises.fresh (Nat.not_le_of_lt (sound.lt_of_mem_slots member))
  childless := by
    intro id structured inside
    by_cases here : id = owner
    · rw [here, raises.placed] at inside
      exact raises.toExtends.level_ne inside
    · exact raises.parent_ne sound (raises.lt_of_owner structured here) inside
  newest := by
    intro id structured
    by_cases here : id = owner
    · exact Nat.le_of_eq here
    · exact Nat.le_of_lt (Nat.lt_of_lt_of_le (raises.lt_of_owner structured here) raises.fresh)

end Raises

namespace Rising

variable (rising : graph.Rising every owner level)

include rising

theorem level_ne : level ≠ some owner := by
  intro same
  exact rising.rooted.not_inside_itself owner (.single (rising.placed.trans same))

theorem isLevel : graph.IsLevel level := rising.placed ▸ rising.sound.parents owner

theorem parent_of_below {id : NodeId} (below : graph.Below (some owner) id) :
    (graph.node id).parent = some owner := by
  induction below with
  | here inside => exact inside
  | up inside _ ih => exact absurd ih (rising.childless _ (rising.sound.parents _ _ inside))

theorem tends (tends : Tends (merged owner level) graph next) : next.Rising every owner level where
  sound := tends.sound rising.sound
  rooted := tends.edits.rooted rising.sound rising.rooted
  ordered := rising.ordered.mono fun _ _ => tends.refills.enters
  stays := tends.stays rising.sound rising.stays
  structured := tends.grows.encloser rising.structured
  placed := (tends.refills.parent owner rising.structured.owner.lt).trans rising.placed
  belongs := by
    intro id apart slot ref member
    refine ⟨tends.belongs rising.sound (fun slot ref member =>
      (rising.belongs id apart slot ref member).1) member, ?_⟩
    rcases tends.refills.slots id slot ref member with old | inside
    · rw [tends.refills.parent ref (rising.sound.lt_of_mem_slots old)]
      exact (rising.belongs id apart slot ref old).2
    · rw [inside]
      exact fun same => apart (Option.some.inj same)
  named := by
    intro id slot member
    rcases tends.refills.slots id slot owner member with old | inside
    · exact rising.named id slot old
    · rw [tends.refills.parent owner rising.structured.owner.lt, rising.placed] at inside
      exact inside
  childless := by
    intro id structured
    have old := tends.refills.owner id structured
    rw [tends.refills.parent id old.lt]
    exact rising.childless id old
  newest := fun id structured => rising.newest id (tends.refills.owner id structured)
  parts := by
    intro slot ref member
    rcases tends.refills.slots owner slot ref member with old | inside
    · exact (rising.parts slot ref old).congr rising.sound tends.grows tends.refills.parent
        rising.isLevel rising.structured.owner.lt (rising.sound.lt_of_mem_slots old)
    · exact .made inside

theorem tends_substitute (bound : old < graph.size) (onLevel : (graph.node old).parent = level) :
    Tends (merged owner level) graph (graph.substitute old owner) :=
  .substitute rising.structured.owner.lt bound (rising.placed.trans onLevel.symm)

theorem tends_addEdge (bound : target < graph.size) (onLevel : (graph.node target).parent = level) :
    Tends (merged owner level) graph (graph.addEdge owner target) :=
  .addEdge (OnLevel.merged owner ⟨rising.structured.owner.lt, rising.placed⟩)
    (OnLevel.merged owner ⟨bound, onLevel⟩)

/-- Other nodes are put into the slots of the structure, none of them as its tail or condition. -/
theorem fill (plain : kind.isPlain = true)
    (becomes : (graph.node owner).kind.Becomes kind) (bounds : ∀ ref ∈ kind.references, ref < graph.size)
    (parts : ∀ slot ref, (slot, ref) ∈ kind.slots → slot ≠ .tail ∧ slot ≠ .condition ∧ ref ≠ owner ∧
      graph.Prepared owner level slot ref) : (graph.mapKind owner fun _ => kind).Rising every owner level := by
  have edit : GraphEdit .full graph (graph.mapKind owner fun _ => kind) :=
    .fill owner kind plain becomes bounds (.inl trivial)
  have grows := edit.maintains.grows
  have parent (id : NodeId) : ((graph.mapKind owner fun _ => kind).node id).parent =
      (graph.node id).parent := parent_mapKind _ id
  have size : (graph.mapKind owner fun _ => kind).size = graph.size := size_mapKind _
  have other {id : NodeId} (apart : id ≠ owner) :
      (graph.mapKind owner fun _ => kind).node id = graph.node id := by
    rw [mapKind, node_modify, if_neg fun here => apart here.1.symm]
  have filled : ((graph.mapKind owner fun _ => kind).node owner).kind = kind := by
    rw [mapKind, node_modify, if_pos ⟨rfl, rising.structured.owner.lt⟩]
  have edges : SameEdges graph (graph.mapKind owner fun _ => kind) := sameEdges_mapKind _
  have isOwner {id : NodeId} (structured : (graph.mapKind owner fun _ => kind).Owner id) : graph.Owner id := by
    by_cases here : id = owner
    · exact here ▸ rising.structured.owner
    · rwa [Owner, other here] at structured
  have below (level : Option NodeId) {id : NodeId} (bound : id < graph.size) :
      (graph.mapKind owner fun _ => kind).Below level id ↔ graph.Below level id :=
    below_congr (fun id _ => parent id) rising.sound bound
  exact {
    sound := edit.maintains.sound rising.sound
    rooted := edit.rooted rising.sound rising.rooted
    structured := grows.encloser rising.structured
    placed := (parent owner).trans rising.placed
    ordered := by
      apply rising.ordered.mono
      rintro outer inner ⟨structured, enters⟩
      refine ⟨isOwner structured, ?_⟩
      rw [parent] at enters
      by_cases here : outer = owner
      · rw [here, filled] at enters
        rcases enters with inside | tail | condition
        · exact .inl (here ▸ inside)
        · exact absurd rfl (parts _ _ tail).1
        · exact absurd rfl (parts _ _ condition).2.1
      · rwa [other here] at enters
    stays := by
      rintro id counts ⟨target, member, apart⟩
      rw [edit.isBlock_eq] at counts
      rw [edges.successors] at member
      rw [parent, parent] at apart
      exact rising.stays id counts ⟨target, member, apart⟩
    belongs := by
      intro id apart slot ref member
      rw [other apart] at member
      have belongs := rising.belongs id apart slot ref member
      refine ⟨?_, by rw [parent]; exact belongs.2⟩
      apply belongs.1.congr rising.sound grows (owner_of_mem_slots member).lt
        (rising.sound.lt_of_mem_slots member)
      · exact fun outer inside => .inl ((parent ref).trans inside)
      · exact fun top node _ bound _ => below _ bound
    named := by
      intro id slot member
      by_cases here : id = owner
      · rw [here, filled] at member
        exact absurd rfl (parts slot owner member).2.2.1
      · rw [other here] at member
        exact rising.named id slot member
    childless := by
      intro id structured
      rw [parent]
      exact rising.childless id (isOwner structured)
    newest := fun id structured => rising.newest id (isOwner structured)
    parts := by
      intro slot ref member
      rw [filled] at member
      exact (parts slot ref member).2.2.2.congr rising.sound grows (fun id _ => parent id)
        rising.isLevel rising.structured.owner.lt (bounds ref (Kind.mem_references_of_mem_slots member)) }

theorem ordered_absorb (start stop : Nat) : (graph.absorb owner level start stop).Ordered := by
  have kind (id : NodeId) : ((graph.absorb owner level start stop).node id).kind = (graph.node id).kind := by
    rw [node_absorb]
    split <;> rfl
  have isOwner {id : NodeId} (structured : (graph.absorb owner level start stop).Owner id) :
      graph.Owner id := by
    rwa [Owner, kind] at structured
  refine @acyclic_of_collapse _ graph.Enters _ owner level ?_ ?_ ?_ rising.ordered
  · rintro outer inner outerApart _ ⟨structured, enters⟩
    refine ⟨isOwner structured, ?_⟩
    rw [kind] at enters
    refine enters.imp_left fun inside => ?_
    rw [node_absorb] at inside
    split at inside
    · exact absurd (Option.some.inj inside).symm outerApart
    · exact inside
  · rintro outer ⟨_, enters⟩
    rw [kind, node_absorb, if_neg fun taken => taken.2.1 rfl, rising.placed] at enters
    rcases enters with inside | tail | condition
    · exact inside
    · exact rising.named outer _ tail
    · exact rising.named outer _ condition
  · rintro inner ⟨structured, enters⟩
    have old := isOwner structured
    have fromSlot (slot : Slot) (single : slot.namesBlock = false)
        (member : (slot, inner) ∈ (graph.node owner).kind.slots) :
        inner ≠ owner ∧ ∀ outer, level = some outer → graph.Enters outer inner := by
      refine ⟨?_, fun outer isLevel => ⟨old, ?_⟩⟩
      · rintro rfl
        exact rising.level_ne (rising.named inner slot member)
      · cases rising.parts slot inner member with
        | made inside => exact absurd inside (rising.childless inner old)
        | beside onLevel _ => exact .inl (onLevel.trans isLevel)
        | named names _ => exact absurd (single.symm.trans names) (by simp)
        | elsewhere isBreak _ _ _ => exact absurd single (by simp [isBreak, Slot.namesBlock])
    rw [kind] at enters
    rcases enters with inside | tail | condition
    · rw [node_absorb] at inside
      split at inside
      · next taken => exact ⟨taken.2.1, fun outer isLevel => ⟨old, .inl (taken.2.2.1.trans isLevel)⟩⟩
      · exact absurd inside (rising.childless inner old)
    · exact fromSlot .tail rfl tail
    · exact fromSlot .condition rfl condition

theorem grows_absorb (start stop : Nat) : Grows graph (graph.absorb owner level start stop) :=
  (GraphEdit.absorb owner level start stop trivial rising.structured rising.placed (.inl trivial) :
    GraphEdit .full graph _).maintains.grows

/-- What is on the level of a structure is taken in if it starts in the range, and astray if not. -/
theorem taken_or_astray {top : NodeId} (bound : top < graph.size) (apart : top ≠ owner)
    (onLevel : (graph.node top).parent = level)
    (isNext : graph.absorb owner level (graph.node owner).start (graph.node owner).stop = next) :
    (next.node top).parent = some owner ∨ next.Astray owner top := by
  subst isNext
  have grows := rising.grows_absorb (graph.node owner).start (graph.node owner).stop
  cases fits : (graph.node top).startsWithin (graph.node owner).start (graph.node owner).stop with
  | true => exact .inl (by rw [node_absorb, if_pos ⟨bound, apart, onLevel, fits⟩])
  | false =>
    have becomes := grows.nodes owner rising.structured.owner.lt
    refine .inr ⟨?_, ?_⟩
    · rw [below_absorb_iff rising.placed fun same => apart (Option.some.inj same)]
      exact rising.rooted.not_below_beside (onLevel.trans rising.placed.symm)
    · rw [becomes.start, becomes.stop, (grows.nodes top bound).startsWithin, fits]

section

variable {base : FlowGraph} (sound : base.Sound) (gains : Gains base graph owner)

include sound gains

theorem keepsNesting_absorb (start stop : Nat) : KeepsNesting base (graph.absorb owner level start stop) := by
  refine ⟨gains.grows.trans (rising.grows_absorb start stop), fun top id topBound bound => ?_⟩
  have apart : some top ≠ some owner := fun same =>
    Nat.lt_irrefl _ (Nat.lt_of_lt_of_le (Option.some.inj same ▸ topBound) gains.fresh)
  exact (below_absorb_iff rising.placed apart start stop).trans (below_congr gains.parent sound bound)

/-- A structure covers whatever was there before it. -/
theorem covers_absorb {id : NodeId} (bound : id < base.size)
    (isNext : graph.absorb owner level (graph.node owner).start (graph.node owner).stop = next) :
    next.Covers owner id := by
  have below {other : NodeId} (apart : other ≠ owner) :
      next.Below (some other) id ↔ graph.Below (some other) id :=
    isNext ▸ below_absorb_iff rising.placed (fun same => apart (Option.some.inj same)) _ _
  have outside : ¬graph.Below (some owner) id := fun inside => by
    have inside := rising.parent_of_below inside
    rw [gains.parent id bound] at inside
    exact Nat.not_lt_of_le gains.fresh (sound.parents id owner inside).lt
  by_cases inside : graph.Below level id
  · obtain ⟨top, onLevel, isTop⟩ := inside.exists_top
    have apart : top ≠ owner := by
      rintro rfl
      rcases isTop with rfl | holds
      · exact Nat.not_lt_of_le gains.fresh bound
      · exact outside holds
    have topBound : top < graph.size := by
      rcases isTop with rfl | holds
      · exact gains.grows.lt bound
      · exact (holds.isOwner rising.sound).lt
    rcases rising.taken_or_astray topBound apart onLevel isNext with taken | astray
    · rcases isTop with rfl | holds
      · exact .around (.here taken)
      · exact .around (((below apart).mpr holds).trans (.here taken))
    · exact .beside (isTop.imp_right (below apart).mpr) astray
  · obtain ⟨outer, isLevel⟩ : ∃ outer, level = some outer := by
      cases level with
      | none => exact absurd (rising.rooted id) inside
      | some outer => exact ⟨outer, rfl⟩
    have apart : outer ≠ owner := fun same => rising.level_ne (isLevel.trans (congrArg some same))
    have onLevel : (next.node owner).parent = some outer := by
      rw [← isNext, node_absorb, if_neg fun taken => taken.2.1 rfl, rising.placed, isLevel]
    exact .deeper (.here onLevel) fun holds => inside (isLevel ▸ (below apart).mp holds)

end

/-- What belonged to another structure still does once the structure has taken nodes in. -/
theorem belongs_absorb {id : NodeId} (apart : id ≠ owner) (member : (slot, ref) ∈ (graph.node id).kind.slots) :
    (graph.absorb owner level (graph.node owner).start (graph.node owner).stop).Belongs id slot ref := by
  generalize isNext : graph.absorb owner level (graph.node owner).start (graph.node owner).stop = next
  have grows : Grows graph next := isNext ▸ rising.grows_absorb _ _
  obtain ⟨belongs, outside⟩ := rising.belongs id apart slot ref member
  have isOwner := owner_of_mem_slots member
  have refBound := rising.sound.lt_of_mem_slots member
  have ownerParent : (next.node owner).parent = level := by
    rw [← isNext, node_absorb, if_neg fun taken => taken.2.1 rfl, rising.placed]
  by_cases here : ref = owner
  · -- The level refers to the structure, which is directly inside it.
    exact .direct (here ▸ ownerParent.trans (rising.named id slot (here ▸ member)))
  · apply belongs.congr rising.sound grows isOwner.lt refBound
    · intro outer inside
      by_cases taken : (graph.node ref).parent = level ∧
          (graph.node ref).startsWithin (graph.node owner).start (graph.node owner).stop = true
      · have becomes := grows.nodes owner rising.structured.owner.lt
        refine .inr ⟨owner, Nat.lt_of_le_of_ne (rising.newest id isOwner) apart, ?_,
          ownerParent.trans (taken.1.symm.trans inside), ?_⟩
        · rw [← isNext, node_absorb, if_pos ⟨refBound, here, taken⟩]
        · rw [becomes.start, becomes.stop, (grows.nodes ref refBound).startsWithin]
          exact taken.2
      · rw [← isNext, node_absorb, if_neg fun moved => taken moved.2.2]
        exact .inl inside
    · intro top node _ _ near
      have topApart : top ≠ owner := by
        rintro rfl
        rcases near with same | same | holds | holds
        · exact apart same.symm
        · exact here same.symm
        · exact outside (rising.parent_of_below holds)
        · exact rising.childless id isOwner (rising.parent_of_below holds)
      exact isNext ▸ below_absorb_iff rising.placed (fun same => topApart (Option.some.inj same)) _ _

/-- What is in the slots of the structure belongs there once it has taken in what starts in its
range. -/
theorem belongs_absorb_self (member : (slot, ref) ∈ (graph.node owner).kind.slots) :
    (graph.absorb owner level (graph.node owner).start (graph.node owner).stop).Belongs owner slot
      ref := by
  generalize isNext : graph.absorb owner level (graph.node owner).start (graph.node owner).stop = next
  have bound := rising.sound.lt_of_mem_slots member
  have grows : Grows graph next := isNext ▸ rising.grows_absorb _ _
  have below {other : Option NodeId} {id : NodeId} (apart : other ≠ some owner) :
      next.Below other id ↔ graph.Below other id :=
    isNext ▸ below_absorb_iff rising.placed apart _ _
  have ownerParent : (next.node owner).parent = level := by
    rw [← isNext, node_absorb, if_neg fun taken => taken.2.1 rfl, rising.placed]
  have refApart : ref ≠ owner := by
    rintro rfl
    exact rising.level_ne (rising.named ref slot member)
  have kept {id : NodeId} (inside : (graph.node id).parent = some owner) :
      (next.node id).parent = some owner := by
    rw [← isNext, node_absorb, if_neg fun taken => ?_, inside]
    exact rising.level_ne (taken.2.2.1.symm.trans inside)
  cases rising.parts slot ref member with
  | made inside => exact .direct (kept inside)
  | beside onLevel fits =>
    rcases rising.taken_or_astray bound refApart onLevel isNext with taken | astray
    · exact .direct taken
    · rcases fits with loose | within
      · exact .astray loose astray
      · have becomes := grows.nodes owner rising.structured.owner.lt
        have outside := astray.outside
        rw [becomes.start, becomes.stop, (grows.nodes ref bound).startsWithin, within] at outside
        cases outside
  | named names inner =>
    have loose : slot.isLoose = true := by
      cases slot <;> simp_all [Slot.namesBlock, Slot.isLoose]
    obtain ⟨top, onLevel, rfl | holds⟩ := inner.exists_top
    · rcases rising.taken_or_astray bound refApart onLevel isNext with taken | astray
      · exact .direct taken
      · exact .astray loose astray
    · by_cases apart : top = owner
      · subst apart
        exact .direct (kept (rising.parent_of_below holds))
      · have holdsNext : next.Below (some top) ref := (below fun same => apart (Option.some.inj same)).mpr holds
        rcases rising.taken_or_astray (holds.isOwner rising.sound).lt apart onLevel isNext with taken | astray
        · exact .deep names (holdsNext.trans (.here taken))
        · exact .within names holdsNext astray
  | @elsewhere fragment isBreak isLevel isFragment apart =>
    have fragmentApart : some fragment ≠ some owner := fun same => rising.level_ne (isLevel.trans same)
    have holds : next.Below (some fragment) owner := .here (ownerParent.trans isLevel)
    refine .elsewhere isBreak ?_ holds ?_
    · exact (grows.nodes fragment (rising.isLevel fragment isLevel).lt).kind.fragment_iff.mpr isFragment
    · rw [below fragmentApart, ← isLevel]
      exact apart

/-- A structure that has taken in what starts in its range, with no edge across its boundary, leaves
the graph tidy. -/
theorem tidy_absorb
    (tight : (graph.absorb owner level (graph.node owner).start (graph.node owner).stop).leak? owner = none) :
    (graph.absorb owner level (graph.node owner).start (graph.node owner).stop).Tidy every where
  ordered := rising.ordered_absorb _ _
  stays := by
    intro id counts strays
    have edit : GraphEdit .full graph
        (graph.absorb owner level (graph.node owner).start (graph.node owner).stop) :=
      .absorb owner level _ _ trivial rising.structured rising.placed (.inl trivial)
    rw [edit.isBlock_eq] at counts
    have agree := (edit.maintains.sound rising.sound).edges
    exact rising.stays id counts (strays.of_leak? level agree tight).of_absorb
  belongs := by
    intro id slot ref member
    rw [node_absorb] at member
    have old : (slot, ref) ∈ (graph.node id).kind.slots := by
      split at member <;> exact member
    by_cases here : id = owner
    · subst here
      exact rising.belongs_absorb_self old
    · exact rising.belongs_absorb here old

end Rising

end FlowGraph

end Structuring
