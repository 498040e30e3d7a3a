import Structuring.Proofs.Landing

/-! Levels and the edges between them.

A graph is closed if no edge leads from one level to another. While a structure is being built,
what is made for it is inside already and what it will take in is still around it; so until it has
taken everything in, its own level and the one around it count as one.
-/

namespace Structuring.FlowGraph

open Bytecode Recovery

variable {graph next final : FlowGraph} {view : Option NodeId → Option NodeId}
  {source target old new owner : NodeId}

/-- Every edge joins two nodes of one level. -/
def Closed (graph : FlowGraph) : Prop :=
  ∀ source, ∀ target ∈ (graph.node source).successors, (graph.node target).parent = (graph.node source).parent

theorem closed_iff (graph : FlowGraph) :
    graph.Closed ↔ ∀ source ∈ graph.ids, ∀ target ∈ (graph.node source).successors,
      (graph.node target).parent = (graph.node source).parent := by
  refine ⟨fun closed source _ => closed source, fun each source target member => ?_⟩
  exact each source (List.mem_range.mpr (lt_size_of_mem_successors member)) target member

instance (graph : FlowGraph) : Decidable graph.Closed := decidable_of_iff _ graph.closed_iff.symm

structure ClosedUnder (view : Option NodeId → Option NodeId) (graph : FlowGraph) : Prop where
  edgesAgree : graph.Mutual
  levels : ∀ source, ∀ target ∈ (graph.node source).successors,
    view (graph.node target).parent = view (graph.node source).parent

def merged (owner : NodeId) (level parent : Option NodeId) : Option NodeId :=
  if parent = some owner then level else parent

theorem merged_owner (owner : NodeId) (level : Option NodeId) : merged owner level (some owner) = level :=
  if_pos rfl

theorem merged_level (owner : NodeId) (level : Option NodeId) : merged owner level level = level := by
  unfold merged
  split <;> rfl

def Strays (view : Option NodeId → Option NodeId) (graph : FlowGraph) (source : NodeId) : Prop :=
  ∃ target ∈ (graph.node source).successors, view (graph.node target).parent ≠ view (graph.node source).parent

def Stays (every : Prop) (view : Option NodeId → Option NodeId) (graph : FlowGraph) : Prop :=
  ∀ id, every ∨ (graph.node id).kind.isBlock = true → ¬graph.Strays view id

theorem closedUnder_iff : graph.ClosedUnder view ↔ graph.Mutual ∧ ∀ source, ¬graph.Strays view source := by
  constructor
  · rintro ⟨agree, levels⟩
    refine ⟨agree, fun source ⟨target, member, apart⟩ => ?_⟩
    exact apart (levels source target member)
  · rintro ⟨agree, stays⟩
    refine ⟨agree, fun source target member => ?_⟩
    exact Classical.byContradiction fun apart => stays source ⟨target, member, apart⟩

structure OnLevel (view : Option NodeId → Option NodeId) (level : Option NodeId) (graph : FlowGraph)
    (id : NodeId) : Prop where
  bound : id < graph.size
  level : view (graph.node id).parent = level

theorem OnLevel.merged {level : Option NodeId} {id : NodeId} (owner : NodeId)
    (onLevel : graph.OnLevel (fun parent => parent) level id) : graph.OnLevel (merged owner level) level id :=
  ⟨onLevel.bound, (congrArg _ onLevel.level).trans (merged_level owner level)⟩

/-! Edits that keep a graph closed -/

/-- Nodes stay on their levels, and only nodes that led to other levels before do so after. -/
structure Relinks (view : Option NodeId → Option NodeId) (graph next : FlowGraph) : Prop where
  size : graph.size ≤ next.size
  parent : ∀ id < graph.size, (next.node id).parent = (graph.node id).parent
  agree : graph.Mutual → next.Mutual
  strays : graph.Mutual → ∀ source, next.Strays view source → graph.Strays view source

namespace Relinks

theorem refl (graph : FlowGraph) : Relinks view graph graph :=
  ⟨Nat.le_refl _, fun _ _ => rfl, id, fun _ _ => id⟩

theorem trans (first : Relinks view graph next) (second : Relinks view next final) :
    Relinks view graph final := by
  refine ⟨Nat.le_trans first.size second.size, fun id bound => ?_, second.agree ∘ first.agree, ?_⟩
  · exact (second.parent id (Nat.lt_of_lt_of_le bound first.size)).trans (first.parent id bound)
  · intro agree source strays
    exact first.strays agree source (second.strays (first.agree agree) source strays)

theorem closed (relinks : Relinks view graph next) (closed : graph.ClosedUnder view) :
    next.ClosedUnder view := by
  rw [closedUnder_iff] at closed ⊢
  exact ⟨relinks.agree closed.1, fun source strays =>
    closed.2 source (relinks.strays closed.1 source strays)⟩

theorem onLevel (relinks : Relinks view graph next) {level : Option NodeId} {id : NodeId}
    (onLevel : graph.OnLevel view level id) : next.OnLevel view level id :=
  ⟨Nat.lt_of_lt_of_le onLevel.bound relinks.size,
    (congrArg view (relinks.parent id onLevel.bound)).trans onLevel.level⟩

theorem lt (relinks : Relinks view graph next) {id : NodeId} (bound : id < graph.size) :
    id < next.size := Nat.lt_of_lt_of_le bound relinks.size

theorem of_edges (size : graph.size ≤ next.size)
    (parent : ∀ id < graph.size, (next.node id).parent = (graph.node id).parent)
    (agree : graph.Mutual → next.Mutual)
    (fresh : ∀ source, ∀ target ∈ (next.node source).successors,
      target ∈ (graph.node source).successors ∨ graph.Strays view source ∨
        view (next.node target).parent = view (next.node source).parent) :
    Relinks view graph next := by
  refine ⟨size, parent, agree, fun agrees source ⟨target, member, apart⟩ => ?_⟩
  rcases fresh source target member with old | strays | same
  · rw [parent target (agrees.target_lt old), parent source (lt_size_of_mem_successors old)] at apart
    exact ⟨target, old, apart⟩
  · exact strays
  · exact absurd same apart

theorem of_sameCores (same : SameCores graph next) (agree : graph.Mutual → next.Mutual)
    (fewer : ∀ source, ∀ target ∈ (next.node source).successors,
      target ∈ (graph.node source).successors) : Relinks view graph next :=
  of_edges (Nat.le_of_eq same.size.symm) (fun id _ => same.parent id) agree fun source target member =>
    .inl (fewer source target member)

theorem of_sameEdges (same : SameEdges graph next) (size : next.size = graph.size)
    (parent : ∀ id, (next.node id).parent = (graph.node id).parent) : Relinks view graph next :=
  of_edges (Nat.le_of_eq size.symm) (fun id _ => parent id) same.mutual fun source _ member =>
    .inl (same.successors source ▸ member)

theorem foldl {α : Type} {step : FlowGraph → α → FlowGraph} {items : List α}
    (each : ∀ item ∈ items, ∀ next, Relinks view graph next → Relinks view next (step next item)) :
    Relinks view graph (items.foldl step graph) :=
  List.foldlRecOn (motive := Relinks view graph) items step (.refl graph) fun next kept item member =>
    kept.trans (each item member next kept)

theorem mapKind (graph : FlowGraph) (id : NodeId) (f : Kind → Kind) : Relinks view graph (graph.mapKind id f) :=
  of_sameEdges (sameEdges_mapKind f) (size_mapKind f) (parent_mapKind f)

theorem mapInstructions (graph : FlowGraph) (id : NodeId) (f : List Instruction → List Instruction) :
    Relinks view graph (graph.mapInstructions id f) :=
  of_sameEdges (sameEdges_mapInstructions f) (size_mapInstructions f) (parent_mapInstructions f)

theorem removeEdge (graph : FlowGraph) (source target : NodeId) :
    Relinks view graph (graph.removeEdge source target) :=
  of_sameCores (sameCores_removeEdge graph source target)
    (mutual_removeEdge · source target) fun _ _ => mem_successors_removeEdge

theorem removeAllEdges (graph : FlowGraph) (source target : NodeId) :
    Relinks view graph (graph.removeAllEdges source target) :=
  removeAllEdges_induction (Relinks view graph) (.refl graph) fun _ ih => ih.trans (.removeEdge _ source target)

theorem clearSuccessors (graph : FlowGraph) (id : NodeId) : Relinks view graph (graph.clearSuccessors id) := by
  refine of_sameCores (sameCores_clearSuccessors graph id) (mutual_clearSuccessors · id) ?_
  intro source target member
  rw [successors_clearSuccessors] at member
  split at member
  · cases member
  · exact member

theorem cutEdgesInto (graph : FlowGraph) (level : Option NodeId) (start stop : Nat) (target : NodeId) :
    Relinks view graph (graph.cutEdgesInto level start stop target) :=
  .foldl fun source _ next _ => .removeAllEdges next source target

theorem addNode (graph : FlowGraph) (kind : Kind) (start stop : Nat) (parent : Option NodeId) :
    Relinks view graph (graph.addNode kind start stop parent) :=
  of_edges (by simp) (fun _ bound => parent_addNode kind start stop parent bound)
    (sameEdges_addNode kind start stop parent).mutual fun source target member =>
      .inl ((sameEdges_addNode kind start stop parent).successors source ▸ member)

variable {level : Option NodeId}

theorem addEdge (leaves : graph.OnLevel view level source)
    (enters : graph.OnLevel view level target) : Relinks view graph (graph.addEdge source target) := by
  have cores : SameCores graph (graph.addEdge source target) := sameCores_addEdge source target
  refine of_edges (Nat.le_of_eq cores.size.symm) (fun id _ => cores.parent id)
    (mutual_addEdge · leaves.bound enters.bound) fun id after member => ?_
  rcases mem_successors_addEdge member with old | ⟨rfl, rfl⟩
  · exact .inl old
  · rw [cores.parent, cores.parent]
    exact .inr (.inr (enters.level.trans leaves.level.symm))

theorem movePredecessors (onLevel : graph.OnLevel view level old)
    (replaces : graph.OnLevel view level new) : Relinks view graph (graph.movePredecessors old new) := by
  have cores := sameCores_movePredecessors graph old new
  refine of_edges (Nat.le_of_eq cores.size.symm) (fun id _ => cores.parent id)
    (mutual_movePredecessors · old replaces.bound) fun id after member => ?_
  rcases mem_successors_movePredecessors member with kept | ⟨rfl, moved⟩
  · exact .inl kept
  · rw [cores.parent, cores.parent, replaces.level, ← onLevel.level]
    by_cases same : view (graph.node old).parent = view (graph.node id).parent
    · exact .inr (.inr same)
    · exact .inr (.inl ⟨old, moved, same⟩)

theorem substitute (onLevel : graph.OnLevel view level old)
    (replaces : graph.OnLevel view level new) : Relinks view graph (graph.substitute old new) := by
  have moved : Relinks view graph (graph.movePredecessors old new) := .movePredecessors onLevel replaces
  unfold FlowGraph.substitute
  dsimp only
  split
  · exact moved.trans (.mapKind _ _ _)
  · exact moved

theorem replaceJump (graph : FlowGraph) (block : NodeId) (sentinel : Sentinel) :
    Relinks view graph (graph.replaceJump block sentinel).1 := by
  unfold FlowGraph.replaceJump
  split
  · exact .refl graph
  · next jump last =>
    have cut : Relinks view graph ((graph.popInstruction block).clearSuccessors block) :=
      (mapInstructions graph block _).trans (.clearSuccessors _ block)
    have bound := cut.lt (lt_size_of_isBlock (Node.isBlock_of_last? last))
    dsimp only
    generalize (graph.popInstruction block).clearSuccessors block = next at cut bound
    split
    · exact cut
    · have marked : Relinks view next (next.addNode (.sentinel sentinel) jump.address jump.nextAddress
          (next.node block).parent) := .addNode next _ _ _ _
      have onLevel := marked.onLevel ⟨bound, rfl⟩
      have replaces : (next.addNode (.sentinel sentinel) jump.address jump.nextAddress
          (next.node block).parent).OnLevel view (view (next.node block).parent) next.size :=
        ⟨by simp, by rw [node_addNode, if_pos rfl]⟩
      refine (cut.trans marked).trans ?_
      split
      · exact .substitute onLevel replaces
      · exact .addEdge onLevel replaces

end Relinks

/-! Structures that take nodes in -/

theorem ClosedUnder.setParent (closed : graph.ClosedUnder view) {id : NodeId}
    (noSuccessors : (graph.node id).successors = []) (noPredecessors : (graph.node id).predecessors = [])
    (parent : Option NodeId) : (graph.setParent id parent).ClosedUnder view := by
  have same : SameEdges graph (graph.setParent id parent) := sameEdges_setParent parent
  refine ⟨same.mutual closed.edgesAgree, fun source target member => ?_⟩
  rw [same.successors] at member
  have apartSource : id ≠ source := by
    rintro rfl
    exact absurd (noSuccessors ▸ member) List.not_mem_nil
  have apartTarget : id ≠ target := by
    rintro rfl
    have before := closed.edgesAgree.mem_predecessors_iff.mpr member
    exact absurd (noPredecessors ▸ before) List.not_mem_nil
  rw [parent_setParent parent apartSource, parent_setParent parent apartTarget]
  exact closed.levels source target member

theorem Strays.of_absorb {level : Option NodeId} {start stop : Nat}
    (strays : (graph.absorb owner level start stop).Strays (merged owner level) source) :
    graph.Strays (merged owner level) source := by
  have levels (id : NodeId) : merged owner level ((graph.absorb owner level start stop).node id).parent =
      merged owner level (graph.node id).parent := by
    rw [node_absorb]
    split
    · next taken => rw [taken.2.2.1, merged_owner, merged_level]
    · rfl
  obtain ⟨target, member, apart⟩ := strays
  rw [levels, levels] at apart
  exact ⟨target, (sameEdges_absorb owner level start stop).successors source ▸ member, apart⟩

theorem leaksFrom_eq_false {id : NodeId} (tight : graph.leak? owner = none)
    (isChild : (graph.node id).parent = some owner) : graph.leaksFrom owner id = false := by
  have among : id ∈ graph.children owner := by
    rw [children, mem_stableSort, List.mem_filter, ids, List.mem_range]
    exact ⟨lt_size_of_parent isChild, by simp [isChild]⟩
  exact Bool.eq_false_iff.mpr (List.find?_eq_none.mp tight id among)

theorem parent_eq_of_leak? (tight : graph.leak? owner = none)
    (isChild : (graph.node source).parent = some owner) (member : target ∈ (graph.node source).successors) :
    (graph.node target).parent = some owner := by
  have none := (Bool.or_eq_false_iff.mp (leaksFrom_eq_false tight isChild)).1
  simpa using List.any_eq_false.mp none target member

/-- Once no edge crosses the boundary of a structure, what leads to another level does so past the
structure. -/
theorem Strays.of_leak? (level : Option NodeId) (agree : graph.Mutual)
    (tight : graph.leak? owner = none) (strays : graph.Strays id source) :
    graph.Strays (merged owner level) source := by
  obtain ⟨target, member, apart⟩ := strays
  have predecessorInside (isChild : (graph.node target).parent = some owner) :
      (graph.node source).parent = some owner := by
    have none := (Bool.or_eq_false_iff.mp (leaksFrom_eq_false tight isChild)).2
    have before := agree.mem_predecessors_iff.mpr member
    simpa using List.any_eq_false.mp none source before
  have outside : (graph.node source).parent ≠ some owner := fun isChild =>
    apart ((parent_eq_of_leak? tight isChild member).trans isChild.symm)
  refine ⟨target, member, ?_⟩
  rwa [merged, merged, if_neg outside, if_neg fun other => outside (predecessorInside other)]

end Structuring.FlowGraph
