import Structuring.Proofs.Forward.Layout
import Structuring.Proofs.LoopNest.Scaffolding

/-! Rows of nodes.

What is directly inside the fragment lies in a row: each node starts where the one before it stops.
So such a node is known by its start, and the node before an address is the one that stops there.
While a structure is being built, only nodes in the span that it is to cover are edited.
-/

namespace Structuring.Forward

open Bytecode Recovery FlowGraph LoopNest

variable {graph next final : FlowGraph} {root last : NodeId} {start stop finish address : Nat}
  {level : Option NodeId}

/-! Nodes that cover addresses -/

def Tiled (graph : FlowGraph) (start : Nat) : List NodeId → Nat → Prop
  | [], stop => start = stop
  | tile :: rest, stop => (graph.node tile).start = start ∧ start < (graph.node tile).stop ∧
      Tiled graph (graph.node tile).stop rest stop

section

variable {tiles first second : List NodeId} {tile other : NodeId}

theorem tiled_append : Tiled graph start (first ++ second) stop ↔
    ∃ middle, Tiled graph start first middle ∧ Tiled graph middle second stop := by
  induction first generalizing start with
  | nil => simp [Tiled]
  | cons tile rest ih => simp [Tiled, ih, and_assoc]

section

variable (tiled : Tiled graph start tiles stop)

include tiled

theorem Tiled.congr (starts : ∀ tile ∈ tiles, (next.node tile).start = (graph.node tile).start)
    (stops : ∀ tile ∈ tiles, (next.node tile).stop = (graph.node tile).stop) : Tiled next start tiles stop := by
  induction tiles generalizing start with
  | nil => exact tiled
  | cons tile rest ih =>
    obtain ⟨begins, grows, tiled⟩ := tiled
    refine ⟨(starts tile (.head _)).trans begins, ?_, ?_⟩
    · rwa [stops tile (.head _)]
    · rw [stops tile (.head _)]
      exact ih tiled (fun other member => starts other (.tail _ member)) fun other member =>
        stops other (.tail _ member)

theorem Tiled.le : start ≤ stop := by
  induction tiles generalizing start with
  | nil => exact Nat.le_of_eq tiled
  | cons tile rest ih => exact Nat.le_of_lt (Nat.lt_of_lt_of_le tiled.2.1 (ih tiled.2.2))

theorem Tiled.bounds (member : tile ∈ tiles) :
    start ≤ (graph.node tile).start ∧ (graph.node tile).start < (graph.node tile).stop ∧
      (graph.node tile).stop ≤ stop := by
  induction tiles generalizing start with
  | nil => cases member
  | cons first rest ih =>
    obtain ⟨rfl, grows, tiled⟩ := tiled
    rcases List.mem_cons.mp member with rfl | later
    · exact ⟨Nat.le_refl _, grows, tiled.le⟩
    · have := ih tiled later
      omega

theorem Tiled.exists_stop (nonempty : tiles ≠ []) : ∃ tile ∈ tiles, (graph.node tile).stop = stop := by
  obtain ⟨before, tile, rfl⟩ := (List.eq_nil_or_concat tiles).resolve_left nonempty
  rw [List.concat_eq_append] at tiled ⊢
  obtain ⟨_, _, _, _, ends⟩ := tiled_append.mp tiled
  exact ⟨tile, List.mem_append_right _ (.head _), ends⟩

theorem Tiled.apart (member : tile ∈ tiles) (among : other ∈ tiles) :
    tile = other ∨ (graph.node tile).stop ≤ (graph.node other).start ∨
      (graph.node other).stop ≤ (graph.node tile).start := by
  induction tiles generalizing start with
  | nil => cases member
  | cons first rest ih =>
    obtain ⟨_, _, tiled⟩ := tiled
    rcases List.mem_cons.mp member with rfl | isLater
    · rcases List.mem_cons.mp among with rfl | later
      · exact .inl rfl
      · exact .inr (.inl (tiled.bounds later).1)
    · rcases List.mem_cons.mp among with rfl | later
      · exact .inr (.inr (tiled.bounds isLater).1)
      · exact ih tiled isLater later

theorem Tiled.eq_of_start (member : tile ∈ tiles) (among : other ∈ tiles)
    (same : (graph.node tile).start = (graph.node other).start) : tile = other := by
  have := tiled.bounds member
  have := tiled.bounds among
  rcases tiled.apart member among with here | before | after
  · exact here
  · omega
  · omega

theorem Tiled.eq_of_stop (member : tile ∈ tiles) (among : other ∈ tiles)
    (same : (graph.node tile).stop = (graph.node other).stop) : tile = other := by
  have := tiled.bounds member
  have := tiled.bounds among
  rcases tiled.apart member among with here | before | after
  · exact here
  · omega
  · omega

end

end

theorem tiled_of_chained {blocks : List (NodeId × PlannedBlock)}
    (chained : Chained start (blocks.map (·.2.plan)) stop)
    (stands : ∀ entry ∈ blocks, Stands graph entry.1 entry.2) : Tiled graph start (blocks.map (·.1)) stop := by
  induction blocks generalizing start with
  | nil => exact chained
  | cons entry rest ih =>
    obtain ⟨begins, grows, chained⟩ := chained
    have here := stands entry (.head _)
    refine ⟨here.start.trans begins, ?_, ?_⟩
    · rw [here.stop, ← begins]
      exact grows
    · rw [here.stop]
      exact ih chained fun other member => stands other (.tail _ member)

structure Row (graph : FlowGraph) (root : NodeId) (tiles : List NodeId) (last : NodeId) (finish : Nat) : Prop where
  level : ∀ id, (graph.node id).parent = some root ↔ id ∈ tiles ∨ id = last
  tiled : Tiled graph 0 tiles finish
  lastStart : (graph.node last).start = finish
  lastStop : (graph.node last).stop = finish
  lastEdges : (graph.node last).successors = []

namespace Row

variable {tiles : List NodeId} {tile other : NodeId}

theorem bound (row : Row graph root tiles last finish) (member : tile ∈ tiles) : tile < graph.size :=
  lt_size_of_parent ((row.level tile).mpr (.inl member))

theorem eq_of_start (row : Row graph root tiles last finish) (level : (graph.node tile).parent = some root)
    (otherLevel : (graph.node other).parent = some root)
    (same : (graph.node tile).start = (graph.node other).start) : tile = other := by
  have lastStart := row.lastStart
  rcases (row.level tile).mp level with member | rfl
  · have := row.tiled.bounds member
    rcases (row.level other).mp otherLevel with among | rfl
    · exact row.tiled.eq_of_start member among same
    · omega
  · rcases (row.level other).mp otherLevel with among | rfl
    · have := row.tiled.bounds among
      omega
    · rfl

end Row

/-- If one node only stops at an address of a level, it is the one before the address. -/
theorem lastNodeBefore?_eq_some {tile : NodeId} (bound : tile < graph.size)
    (fits : (graph.node tile).parent = level ∧ (graph.node tile).stop = address ∧ (graph.node tile).start < address)
    (only : ∀ id, (graph.node id).parent = level → (graph.node id).stop = address →
      (graph.node id).start < address → id = tile) : graph.lastNodeBefore? level address = some tile := by
  unfold lastNodeBefore?
  extract_lets candidates
  have all : ∀ id ∈ candidates, id = tile := fun id member => by
    have fits := (List.mem_filter.mp member).2
    simp only [Bool.and_eq_true, decide_eq_true_eq, beq_iff_eq] at fits
    exact only id fits.1.1 fits.1.2 fits.2
  have some : tile ∈ candidates := List.mem_filter.mpr
    ⟨List.mem_range.mpr bound, by simp [fits.1, fits.2.1, fits.2.2]⟩
  -- Whatever is chosen among candidates that are all the same is that one.
  have stays (ids : List NodeId) (same : ∀ id ∈ ids, id = tile) : ids.foldl (fun best id =>
      match best with
      | none => Option.some id
      | .some other => if graph.yieldsTo other id then .some id else .some other) (.some tile) = .some tile := by
    induction ids with
    | nil => rfl
    | cons id rest ih =>
      rw [List.foldl_cons, same id (.head _)]
      simp only [ite_self]
      exact ih fun other member => same other (.tail _ member)
  cases isList : candidates with
  | nil => rw [isList] at some; cases some
  | cons id rest =>
    rw [isList] at all
    rw [List.foldl_cons, all id (.head _)]
    exact stays rest fun other member => all other (.tail _ member)

namespace Row

variable {tiles : List NodeId} {tile : NodeId}

/-- The node before an address is the one of the row that stops there. -/
theorem lastNodeBefore?_stop (row : Row graph root tiles last finish) (member : tile ∈ tiles) :
    graph.lastNodeBefore? (some root) (graph.node tile).stop = some tile := by
  have bounds := row.tiled.bounds member
  refine lastNodeBefore?_eq_some (row.bound member) ⟨(row.level tile).mpr (.inl member), rfl, bounds.2.1⟩
    fun id level stops before => ?_
  rcases (row.level id).mp level with among | rfl
  · exact row.tiled.eq_of_stop among member stops
  · have lastStart := row.lastStart
    omega

end Row

/-! Edits inside a span -/

structure Trims (graph next : FlowGraph) (root : NodeId) (inner : List NodeId) (start stop : Nat) : Prop where
  keeps : Keeps graph next
  relinks : Relinks id graph next
  kinds : ∀ id < graph.size, id ≠ root → id ∉ inner ∨ (graph.node id).kind.isBlock = false →
    (next.node id).kind = (graph.node id).kind
  others : ∀ id < graph.size, id ∉ inner → startsAfter next id = startsAfter graph id
  inside : ∀ id < graph.size, ∀ address ∈ startsAfter next id, address ∈ startsAfter graph id
  fresh : ∀ id, graph.size ≤ id → (next.node id).parent = some root →
    start < (next.node id).start ∧ (next.node id).start < stop
  bare : ∀ id, graph.size ≤ id → (next.node id).successors = [] ∧ (next.node id).kind.isBlock = false

namespace Trims

variable {inner : List NodeId}

theorem absent_bare {id : NodeId} (outside : graph.size ≤ id) :
    (graph.node id).successors = [] ∧ (graph.node id).kind.isBlock = false := by
  rw [node_of_size_le outside]
  exact ⟨rfl, rfl⟩

theorem absent_parent {id : NodeId} (outside : graph.size ≤ id) : (graph.node id).parent ≠ some root := by
  rw [node_of_size_le outside]
  simp [Node.absent]

theorem refl (graph : FlowGraph) (root : NodeId) (inner : List NodeId) (start stop : Nat) :
    Trims graph graph root inner start stop where
  keeps := .refl graph
  relinks := .refl graph
  kinds _ _ _ _ := rfl
  others _ _ _ := rfl
  inside _ _ _ := id
  fresh _ outside level := absurd level (absent_parent outside)
  bare _ outside := absent_bare outside

theorem trans (first : Trims graph next root inner start stop) (second : Trims next final root inner start stop)
    (rooted : root < graph.size) (bounds : ∀ id ∈ inner, id < graph.size) :
    Trims graph final root inner start stop where
  keeps := first.keeps.trans second.keeps
  relinks := first.relinks.trans second.relinks
  kinds id bound apart outside := by
    have same := first.kinds id bound apart outside
    exact (second.kinds id (first.keeps.lt bound) apart (same ▸ outside)).trans same
  others id bound outside :=
    (second.others id (first.keeps.lt bound) outside).trans (first.others id bound outside)
  inside id bound address member :=
    first.inside id bound address (second.inside id (first.keeps.lt bound) address member)
  fresh id outside level := by
    rcases Nat.lt_or_ge id next.size with bound | beyond
    · rw [second.keeps.parent id bound] at level
      rw [second.keeps.start id bound]
      exact first.fresh id outside level
    · exact second.fresh id beyond level
  bare id outside := by
    rcases Nat.lt_or_ge id next.size with bound | beyond
    · obtain ⟨noEdges, noBlock⟩ := first.bare id outside
      have apart : id ∉ inner := fun member => Nat.not_lt_of_le outside (bounds id member)
      refine ⟨?_, ?_⟩
      · have same := second.others id bound apart
        rw [startsAfter, startsAfter, noEdges] at same
        exact List.map_eq_nil_iff.mp same
      · rw [second.kinds id bound (Nat.ne_of_gt (Nat.lt_of_lt_of_le rooted outside)) (.inl apart)]
        exact noBlock
    · exact second.bare id beyond

theorem of_sameCores (same : SameCores graph next) (relinks : Relinks id graph next)
    (others : ∀ id, id ∉ inner → (next.node id).successors = (graph.node id).successors)
    (fewer : ∀ id, ∀ target ∈ (next.node id).successors, target ∈ (graph.node id).successors) :
    Trims graph next root inner start stop where
  keeps := .of_sameCores same
  relinks := relinks
  kinds id _ _ _ := same.kind id
  others id _ outside := by
    rw [startsAfter, others id outside]
    exact List.map_congr_left fun target _ => same.start target
  inside id _ address member := by
    obtain ⟨target, isTarget, rfl⟩ := List.mem_map.mp member
    rw [same.start]
    exact List.mem_map_of_mem (fewer id target isTarget)
  fresh id outside level := absurd (same.parent id ▸ level) (absent_parent outside)
  bare id outside := by
    obtain ⟨noEdges, noBlock⟩ := absent_bare outside
    refine ⟨List.eq_nil_iff_forall_not_mem.mpr fun target member => ?_, by rw [same.kind, noBlock]⟩
    exact absurd (noEdges ▸ fewer id target member) List.not_mem_nil

theorem clearSuccessors {id : NodeId} (member : id ∈ inner) :
    Trims graph (graph.clearSuccessors id) root inner start stop := by
  refine .of_sameCores (sameCores_clearSuccessors graph id) (.clearSuccessors graph id)
    (fun other outside => ?_) fun other target isTarget => ?_
  · rw [successors_clearSuccessors, if_neg]
    rintro rfl
    exact outside member
  · rw [successors_clearSuccessors] at isTarget
    split at isTarget
    · cases isTarget
    · exact isTarget

theorem mapInstructions {id : NodeId} (member : id ∈ inner) (f : List Instruction → List Instruction) :
    Trims graph (graph.mapInstructions id f) root inner start stop := by
  have edges : SameEdges graph (graph.mapInstructions id f) := sameEdges_mapInstructions f
  have starts (other : NodeId) : ((graph.mapInstructions id f).node other).start = (graph.node other).start := by
    rw [FlowGraph.mapInstructions, node_modify]
    split
    · next here =>
      obtain ⟨rfl, _⟩ := here
      unfold Node.mapInstructions
      split <;> rfl
    · rfl
  have leads (other : NodeId) : startsAfter (graph.mapInstructions id f) other = startsAfter graph other := by
    rw [startsAfter, edges.successors]
    exact List.map_congr_left fun target _ => starts target
  refine ⟨.mapInstructions graph id f, .mapInstructions graph id f, fun other _ _ outside => ?_,
    fun other _ _ => leads other, fun other _ address among => leads other ▸ among,
    fun other outside level => absurd (parent_mapInstructions f other ▸ level) (absent_parent outside),
    fun other outside => ?_⟩
  · by_cases here : id = other
    · subst here
      have noBlock := outside.resolve_left fun apart => apart member
      rw [FlowGraph.mapInstructions, node_modify]
      split
      · unfold Node.mapInstructions
        split
        · next isKind => rw [isKind] at noBlock; exact absurd noBlock (by simp [Kind.isBlock])
        · rfl
      · rfl
    · rw [node_mapInstructions_of_ne here]
  · obtain ⟨noEdges, noBlock⟩ := absent_bare outside
    refine ⟨(edges.successors other).trans noEdges, ?_⟩
    rw [FlowGraph.mapInstructions, node_modify, if_neg fun here => ?_, noBlock]
    exact Nat.not_lt_of_le outside (here.1 ▸ here.2)

theorem popIf {id : NodeId} (member : id ∈ inner) (opcode : Opcode) :
    Trims graph (graph.popIf id opcode) root inner start stop := by
  unfold FlowGraph.popIf
  split
  · exact mapInstructions member _
  · exact .refl graph root inner start stop

theorem dropBranch {id : NodeId} (rooted : root < graph.size) (bounds : ∀ id ∈ inner, id < graph.size)
    (member : id ∈ inner) (opcode : Opcode) : Trims graph (graph.dropBranch id opcode) root inner start stop :=
  (popIf member opcode).trans (clearSuccessors member) rooted bounds

theorem addNode (agree : graph.Mutual) {sentinel : Sentinel} {behind : Nat} {parent : Option NodeId}
    (inside : start < address ∧ address < stop) :
    Trims graph (graph.addNode (.sentinel sentinel) address behind parent) root inner start stop := by
  have old (id : NodeId) (bound : id < graph.size) :
      (graph.addNode (.sentinel sentinel) address behind parent).node id = graph.node id := by
    rw [node_addNode, if_neg (Nat.ne_of_lt bound)]
  have leads (id : NodeId) (bound : id < graph.size) :
      startsAfter (graph.addNode (.sentinel sentinel) address behind parent) id = startsAfter graph id := by
    rw [startsAfter, old id bound]
    exact List.map_congr_left fun target member => by rw [old target (agree.target_lt member)]
  refine ⟨.addNode graph _ _ _ _, .addNode graph _ _ _ _, fun id bound _ _ => by rw [old id bound],
    fun id bound _ => leads id bound, fun id bound address member => leads id bound ▸ member,
    fun id outside level => ?_, fun id outside => ?_⟩
  · rw [node_addNode] at level ⊢
    split at level
    · next here => rwa [if_pos here]
    · exact absurd level (absent_parent outside)
  · rw [node_addNode]
    split
    · exact ⟨rfl, rfl⟩
    · exact absent_bare outside

theorem substitute {old new : NodeId} (isOld : graph.OnLevel id (some root) old)
    (isNew : graph.OnLevel id (some root) new) (same : (graph.node new).start = (graph.node old).start) :
    Trims graph (graph.substitute old new) root inner start stop := by
  have keeps := Keeps.substitute graph old new
  have size : (graph.substitute old new).size = graph.size := size_substitute old new
  have starts (target : NodeId) :
      ((graph.substitute old new).node target).start = (graph.node target).start := by
    rcases Nat.lt_or_ge target graph.size with bound | outside
    · exact keeps.start target bound
    · rw [node_of_size_le outside, node_of_size_le (size ▸ outside)]
  have leads (id : NodeId) : startsAfter (graph.substitute old new) id = startsAfter graph id := by
    rw [startsAfter, List.map_congr_left fun target _ => starts target]
    exact map_successors_substitute (fun target => (graph.node target).start) same graph id
  refine ⟨keeps, .substitute isOld isNew, fun other _ apart _ => kind_substitute new ?_,
    fun other _ _ => leads other, fun other _ address member => leads other ▸ member,
    fun other outside level => absurd level (absent_parent (size ▸ outside)),
    fun other outside => absent_bare (size ▸ outside)⟩
  have level : (graph.node old).parent = some root := isOld.level
  rw [level]
  exact fun here => apart (Option.some.inj here).symm

theorem cutEdgesInto {target : NodeId}
    (sources : ∀ id, (graph.node id).parent = level → (graph.node id).startsWithin start stop = true →
      target ∈ (graph.node id).successors → id ∈ inner) (agree : graph.Mutual) :
    Trims graph (graph.cutEdgesInto level start stop target) root inner start stop := by
  have apart (graph : FlowGraph) (source id : NodeId) (other : source ≠ id) :
      ((graph.removeAllEdges source target).node id).successors = (graph.node id).successors :=
    removeAllEdges_induction (fun next => (next.node id).successors = (graph.node id).successors) rfl
      fun _ ih => by rw [successors_removeEdge, if_neg other, ih]
  have cores : SameCores graph (graph.cutEdgesInto level start stop target) :=
    SameCores.foldl _ (fun _ _ => sameCores_removeAllEdges _ _ _) _ _
  refine .of_sameCores cores (.cutEdgesInto graph level start stop target) (fun id outside => ?_)
    fun _ _ => mem_successors_cutEdgesInto
  unfold FlowGraph.cutEdgesInto
  refine List.foldlRecOn (motive := fun next : FlowGraph =>
    (next.node id).successors = (graph.node id).successors) _ _ rfl fun next kept source member => ?_
  obtain ⟨isSource, fits⟩ := List.mem_filter.mp member
  simp only [Bool.and_eq_true, decide_eq_true_eq] at fits
  have among := sources source fits.1 fits.2 (agree.mem_predecessors_iff.mp isSource)
  rw [apart next source id fun here => outside (here ▸ among), kept]

end Trims

end Structuring.Forward
