import Structuring.Proofs.Forward.Wrapping
import Structuring.Proofs.LoopNest.Building

/-! A conditional put around its arms.

The condition and its arms are a span of the row on the level of the fragment. The arm for true ends
with a jump, which is taken out, if and only if there is an `else`.
-/

namespace Structuring.BranchNest

open Bytecode Recovery FlowGraph LoopNest Forward

variable {graph next final dropped : FlowGraph} {root last condition join target tile new : NodeId}
  {start stop finish address : Nat} {front more back gone inner : List NodeId} {session : Session}
  {source : Source} {mayFail : Prop} {skip : Option NodeId}

/-! Edges that are cut -/

theorem not_mem_removeAllEdges (graph : FlowGraph) (source target : NodeId) :
    target ∉ ((graph.removeAllEdges source target).node source).successors := by
  have counts (count : Nat) : ((Nat.repeat (·.removeEdge source target) count graph).node source).successors.count
      target = (graph.node source).successors.count target - count := by
    induction count with
    | zero => rfl
    | succ count ih =>
      rw [Nat.repeat, successors_removeEdge, if_pos rfl, List.count_erase_self, ih]
      omega
  rw [← List.count_eq_zero, removeAllEdges, counts, Nat.sub_self]

theorem not_mem_cutEdgesInto (agree : graph.Mutual) {level : Option NodeId}
    (onLevel : (graph.node tile).parent = level) (within : (graph.node tile).startsWithin start stop = true) :
    target ∉ ((graph.cutEdgesInto level start stop target).node tile).successors := by
  unfold cutEdgesInto
  extract_lets sources
  have gone (ids : List NodeId) (graph : FlowGraph)
      (cases : tile ∈ ids ∨ target ∉ (graph.node tile).successors) :
      target ∉ ((ids.foldl (fun graph source => graph.removeAllEdges source target) graph).node tile).successors := by
    induction ids generalizing graph with
    | nil => exact cases.resolve_left List.not_mem_nil
    | cons id rest ih =>
      refine ih _ ?_
      rcases cases with member | absent
      · rcases List.mem_cons.mp member with rfl | later
        · exact .inr (not_mem_removeAllEdges graph _ target)
        · exact .inl later
      · exact .inr fun member => absent (mem_successors_removeAllEdges member)
  refine gone sources graph (Decidable.or_iff_not_imp_right.mpr fun member => ?_)
  have isEdge := agree.mem_predecessors_iff.mpr (Decidable.not_not.mp member)
  exact List.mem_filter.mpr ⟨isEdge, by simp [onLevel, within]⟩

/-! Blocks that lose their branches -/

structure Strips (graph next : FlowGraph) (root : NodeId) (gone : List NodeId) : Prop where
  kept : ∀ id < graph.size, id ≠ root → id ∉ gone → (next.node id).kind = (graph.node id).kind
  cut : ∀ id ∈ gone, ∀ parts, (graph.node id).kind = .block parts →
    (next.node id).kind = .block { parts with instructions := parts.instructions.dropLast }

theorem Strips.trans {first second : List NodeId} (early : Strips graph next root first)
    (late : Strips next final root second) (size : graph.size ≤ next.size)
    (apart : ∀ id ∈ first, id ∉ second) (bounds : ∀ id ∈ first ++ second, id < graph.size ∧ id ≠ root) :
    Strips graph final root (first ++ second) where
  kept id bound other outside := by
    rw [List.mem_append, not_or] at outside
    rw [late.kept id (Nat.lt_of_lt_of_le bound size) other outside.2, early.kept id bound other outside.1]
  cut id member parts isBlock := by
    obtain ⟨bound, other⟩ := bounds id member
    rcases List.mem_append.mp member with isFirst | isSecond
    · rw [late.kept id (Nat.lt_of_lt_of_le bound size) other (apart id isFirst)]
      exact early.cut id isFirst parts isBlock
    · refine late.cut id isSecond parts ?_
      rw [early.kept id bound other fun isFirst => apart id isFirst isSecond, isBlock]

theorem Strips.of_kinds (strips : Strips graph next root gone)
    (kinds : ∀ id < graph.size, id ≠ root → (final.node id).kind = (next.node id).kind)
    (bounds : ∀ id ∈ gone, id < graph.size ∧ id ≠ root) : Strips graph final root gone where
  kept id bound other outside := (kinds id bound other).trans (strips.kept id bound other outside)
  cut id member parts isBlock :=
    (kinds id (bounds id member).1 (bounds id member).2).trans (strips.cut id member parts isBlock)

theorem strips_popInstruction (graph : FlowGraph) (root id : NodeId) :
    Strips graph (graph.popInstruction id) root [id] where
  kept other _ _ outside := by
    have apart : id ≠ other := fun here => outside (List.mem_singleton.mpr here.symm)
    rw [popInstruction, node_mapInstructions_of_ne apart]
  cut other member parts isBlock := by
    rw [List.mem_singleton.mp member] at isBlock ⊢
    exact kind_mapInstructions_self isBlock _

/-! New nodes -/

structure Spare (graph next : FlowGraph) (root : NodeId) : Prop where
  size : graph.size ≤ next.size
  old : ∀ id < graph.size, next.node id = graph.node id
  fresh : ∀ id, graph.size ≤ id → (next.node id).parent ≠ some root ∧ (next.node id).successors = [] ∧
    (next.node id).predecessors = [] ∧ (next.node id).kind.isBlock = false

theorem Spare.refl (graph : FlowGraph) (root : NodeId) : Spare graph graph root where
  size := Nat.le_refl _
  old _ _ := rfl
  fresh id outside := by
    rw [node_of_size_le outside]
    exact ⟨by simp [Node.absent], rfl, rfl, rfl⟩

theorem Spare.trans (first : Spare graph next root) (second : Spare next final root) : Spare graph final root where
  size := Nat.le_trans first.size second.size
  old id bound := (second.old id (Nat.lt_of_lt_of_le bound first.size)).trans (first.old id bound)
  fresh id outside := by
    rcases Nat.lt_or_ge id next.size with bound | beyond
    · rw [second.old id bound]
      exact first.fresh id outside
    · exact second.fresh id beyond

theorem spare_addNode (graph : FlowGraph) (root : NodeId) (address : Nat) :
    Spare graph (graph.addNode (.sentinel .empty) address address none) root where
  size := by simp
  old id bound := by rw [node_addNode, if_neg (Nat.ne_of_lt bound)]
  fresh id outside := by
    rw [node_addNode]
    split
    · exact ⟨by simp, rfl, rfl, rfl⟩
    · exact (Spare.refl graph root).fresh id outside

theorem reaches_orEmpty (root : NodeId) (id : Option NodeId) (address : Nat) :
    Reaches (fun _ => mayFail) (orEmpty id address) session fun found next =>
      next = session.withGraph next.graph ∧ Spare session.graph next.graph root ∧
        ∀ fresh ∈ found.2, session.graph.size ≤ fresh ∧ fresh < next.graph.size := by
  unfold orEmpty
  split
  · exact .pure ⟨rfl, .refl _ root, List.forall_mem_nil _⟩
  · refine .addNode_bind fun next isNext nextGraph => .pure ⟨?_, ?_, fun fresh member => ?_⟩
    · rw [isNext]
      rfl
    · rw [nextGraph]
      exact spare_addNode _ root address
    · rw [List.mem_singleton.mp member, nextGraph, size_addNode]
      exact ⟨Nat.le_refl _, Nat.lt_succ_self _⟩

theorem Spare.placed (spare : Spare graph next root) (kind : Kind) (start stop : Nat) :
    Placed graph (next.addNode kind start stop (some root)) root next.size kind start stop where
  size := ⟨spare.size, by simp⟩
  old id bound := by
    rw [node_addNode, if_neg (Nat.ne_of_lt (Nat.lt_of_lt_of_le bound spare.size)), spare.old id bound]
  made := by rw [node_addNode, if_pos rfl]
  fresh id outside apart := by
    rw [node_addNode, if_neg apart]
    exact spare.fresh id outside

theorem placed_setParent {placed : FlowGraph} {fresh : NodeId} {kind : Kind}
    (place : Placed graph placed root new kind start stop) (isFresh : graph.size ≤ fresh) (apart : fresh ≠ new)
    (rooted : root < graph.size) : Placed graph (placed.setParent fresh (some new)) root new kind start stop where
  size := by simpa using place.size
  old id bound := by
    rw [setParent, node_modify, if_neg fun here => ?_, place.old id bound]
    exact Nat.not_lt_of_le isFresh (here.1 ▸ bound)
  made := by rw [setParent, node_modify, if_neg fun here => apart here.1, place.made]
  fresh id outside other := by
    rw [setParent, node_modify]
    split
    · next here =>
      refine ⟨fun level => ?_, (place.fresh id outside other).2⟩
      have isRoot : new = root := Option.some.inj level
      exact Nat.not_lt_of_le place.size.1 (isRoot ▸ rooted)
    · exact place.fresh id outside other

/-! The conditional -/

structure BuiltIf (graph : FlowGraph) (root last : NodeId) (front inner back : List NodeId) (condition : NodeId)
    (gone : List NodeId) (hasElse : Bool) (start stop : Nat) (session next : Session) (new : NodeId) : Prop where
  wraps : ∃ trimmed parts, Wraps graph trimmed next.graph root last front inner back new
    (.conditional parts) start stop ∧ parts.condition = condition ∧ parts.otherwise.isSome = hasElse
  strips : Strips graph next.graph root gone
  frame : next.context = { session.context with
    graph := next.graph, conditionals := session.conditionals ++ [new] }
  claims : next.claims = session.claims

theorem BuiltIf.reworks {hasElse : Bool} {next : Session}
    (built : BuiltIf graph root last front inner back condition gone hasElse start stop session next new)
    (span : Span graph root last front inner back start stop finish)
    (among : ∀ id ∈ gone, id ∈ inner ∧ (graph.node id).kind.isBlock = true) :
    Reworks graph next.graph root inner := by
  obtain ⟨trimmed, parts, wraps, _, _⟩ := built.wraps
  refine ⟨Nat.le_of_lt (Nat.lt_of_le_of_lt wraps.size.1 wraps.size.2), wraps.starts, wraps.stops,
    fun id bound outside => ?_, fun id bound apart cases => built.strips.kept id bound apart fun isGone => ?_,
    fun id level outside => ?_, fun id outside => ?_⟩
  · rw [wraps.parents id bound, if_neg outside]
  · obtain ⟨isInner, isBlock⟩ := among id isGone
    exact cases.elim (fun outside => outside isInner) fun noBlock => absurd (isBlock.symm.trans noBlock) (by simp)
  · rcases span.mem_cases level with isInner | isOuter | rfl
    · exact absurd isInner outside
    · exact wraps.leads id isOuter
    · rw [startsAfter, startsAfter, wraps.lastEdges, span.row.lastEdges]
      rfl
  · by_cases isNew : id = new
    · rw [isNew, wraps.made.2.2.2]
      rfl
    · exact (wraps.fresh id outside isNew).2

section

variable (span : Span graph root last front (condition :: more) (join :: back) start stop finish)
  (closed : graph.ClosedUnder id)
  (leads : ∀ tile ∈ condition :: more, ∀ address ∈ startsAfter graph tile, start < address ∧ address ≤ stop)
include span closed leads

/-- Once the edges to where the arms meet are cut, those in the span stay in it. -/
theorem inside_of_cut (trims : Trims graph dropped root (condition :: more) start stop) :
    ∀ tile ∈ condition :: more,
      ∀ address ∈ startsAfter (dropped.cutEdgesInto (some root) start stop join) tile,
        start < address ∧ address < stop := by
  intro tile inner address among
  have closedDropped := trims.relinks.closed closed
  have cut : SameCores dropped (dropped.cutEdgesInto (some root) start stop join) :=
    SameCores.foldl _ (fun _ _ => sameCores_removeAllEdges _ _ _) _ _
  have bound := span.bound_inner inner
  have level : (dropped.node tile).parent = some root := by
    rw [trims.keeps.parent tile bound]
    exact span.level (mem_row_of_inner inner)
  have within : (dropped.node tile).startsWithin start stop = true := by
    rw [Node.startsWithin, trims.keeps.start tile bound]
    simpa using span.start_inner inner
  obtain ⟨target, isTarget, rfl⟩ := List.mem_map.mp among
  have isOld := mem_successors_cutEdgesInto isTarget
  have known := leads tile inner _ (trims.inside tile bound _ (List.mem_map_of_mem isOld))
  rw [cut.start]
  refine ⟨known.1, Nat.lt_of_le_of_ne known.2 fun same => ?_⟩
  -- Only the join starts where the span stops.
  have targetLevel : (dropped.node target).parent = some root := (closedDropped.levels tile target isOld).trans level
  have isJoin : target = join := by
    rcases Nat.lt_or_ge target graph.size with old | fresh
    · rw [trims.keeps.parent target old] at targetLevel
      rw [trims.keeps.start target old] at same
      exact span.row.eq_of_start targetLevel (span.level (List.mem_append_right _ (.head _)))
        (same.trans span.behind.1.symm)
    · exact absurd same (Nat.ne_of_lt (trims.fresh target fresh targetLevel).2)
  exact not_mem_cutEdgesInto closedDropped.edgesAgree level within (isJoin ▸ isTarget)

omit closed leads in
theorem mem_inner_of_edge (trims : Trims graph dropped root (condition :: more) start stop)
    (level : (dropped.node tile).parent = some root)
    (within : (dropped.node tile).startsWithin start stop = true) (edge : join ∈ (dropped.node tile).successors) :
    tile ∈ condition :: more := by
  rcases Nat.lt_or_ge tile graph.size with old | fresh
  · rw [trims.keeps.parent tile old] at level
    rw [Node.startsWithin, trims.keeps.start tile old] at within
    have within : start ≤ (graph.node tile).start ∧ (graph.node tile).start < stop := by simpa using within
    rcases span.mem_cases level with inner | outer | rfl
    · exact inner
    · have := span.start_outer outer
      omega
    · have := span.start_last
      omega
  · rw [(trims.bare tile fresh).1] at edge
    cases edge

variable (rooted : root < graph.size) (notRoot : ∀ id ∈ condition :: more, id ≠ root)
include rooted notRoot

theorem reaches_wrapArms {arms : Arms} (trims : Trims graph session.graph root (condition :: more) start stop)
    (strips : Strips graph session.graph root gone) (among : ∀ id ∈ gone, id ∈ more ∧ id ≠ condition)
    (branches : (graph.node condition).lastOpcode? = some .bf) (isJoin : arms.join = join)
    (isStop : arms.joinAddress = stop) :
    Succeeds (wrapArms source condition (some root) start address arms) session fun _ next =>
      ∃ new, BuiltIf graph root last front (condition :: more) (join :: back) condition (gone ++ [condition])
        (arms.emptyElse || arms.otherwise.isSome) start stop session next new := by
  have bounds (id : NodeId) (member : id ∈ condition :: more) : id < graph.size := span.bound_inner member
  have apart : condition ∉ gone := fun member => (among condition member).2 rfl
  have kept := strips.kept condition (bounds condition (.head _)) (notRoot condition (.head _)) apart
  unfold wrapArms
  rw [isJoin, isStop]
  refine .modifyGraph_bind fun dropped isDropped droppedGraph => ?_
  refine .modifyGraph_bind fun cut isCut cutGraph => ?_
  have toDropped : Trims graph dropped.graph root (condition :: more) start stop := by
    rw [droppedGraph]
    exact trims.trans (.dropBranch (trims.keeps.lt rooted) (fun id member => trims.keeps.lt (bounds id member))
      (.head _) .bf) rooted bounds
  have toCut : Trims graph cut.graph root (condition :: more) start stop := by
    rw [cutGraph]
    refine toDropped.trans (.cutEdgesInto (fun id level within edge => ?_)
      (toDropped.relinks.closed closed).edgesAgree) rooted bounds
    exact mem_inner_of_edge span toDropped level within edge
  have inside := inside_of_cut span closed leads toDropped
  rw [← cutGraph] at inside
  have known (id : NodeId) (member : id ∈ gone ++ [condition]) : id < graph.size ∧ id ≠ root := by
    have inner : id ∈ condition :: more := by
      rcases List.mem_append.mp member with early | here
      · exact .tail _ (among id early).1
      · exact List.mem_singleton.mp here ▸ .head _
    exact ⟨bounds id inner, notRoot id inner⟩
  -- The branch of the condition is gone beside what was gone before.
  have stripsCut : Strips graph cut.graph root (gone ++ [condition]) := by
    have cores : SameCores dropped.graph cut.graph := by
      rw [cutGraph]
      exact SameCores.foldl _ (fun _ _ => sameCores_removeAllEdges _ _ _) _ _
    have last : (session.graph.node condition).lastOpcode? = some .bf := by
      rw [Node.lastOpcode?, Node.last?, Node.instructions, kept]
      exact branches
    refine (strips.trans (strips_popInstruction _ root condition) trims.keeps.size (fun id member here => ?_) known).of_kinds
      (fun id _ _ => ?_) known
    · exact apart (List.mem_singleton.mp here ▸ member)
    · rw [cores.kind, droppedGraph, dropBranch, (sameCores_clearSuccessors _ _).kind, popIf, if_pos last]
  refine .bind (reaches_orEmpty root _ _) ?_
  rintro ⟨whenTrue, freshTrue⟩ one ⟨isOne, spareOne, newTrue⟩
  refine .bind (reaches_orEmpty root _ _) ?_
  rintro ⟨whenFalse, freshFalse⟩ two ⟨isTwo, spareTwo, newFalse⟩
  dsimp only at newTrue newFalse ⊢
  have hasElse : (if arms.emptyElse = true then some whenFalse else arms.otherwise).isSome =
      (arms.emptyElse || arms.otherwise.isSome) := by
    cases arms.emptyElse <;> rfl
  generalize (if arms.emptyElse = true then some whenFalse else arms.otherwise) = otherwise at hasElse ⊢
  refine .addNode_bind fun made isMade madeGraph => ?_
  have spare := spareOne.trans spareTwo
  -- The empty arms are put into the conditional.
  refine .bind (.forM (fun next => Session.OnlyGraph two next ∧ Placed cut.graph
    next.graph root two.graph.size (.conditional ⟨condition, whenTrue, whenFalse, otherwise⟩)
    start stop) ⟨?_, ?_⟩ fun fresh member next kept => ?_) fun _ placed kept => ?_
  · exact .of_eq isMade
  · rw [madeGraph]
    exact spare.placed _ start stop
  · obtain ⟨isNext, place⟩ := kept
    have isFresh : cut.graph.size ≤ fresh ∧ fresh < two.graph.size := by
      rcases List.mem_append.mp member with early | late
      · exact ⟨(newTrue fresh early).1, Nat.lt_of_lt_of_le (newTrue fresh early).2 spareTwo.size⟩
      · exact ⟨Nat.le_trans spareOne.size (newFalse fresh late).1, (newFalse fresh late).2⟩
    refine .imp .modifyGraph fun _ final isFinal => ?_
    refine ⟨isNext.trans (.of_eq isFinal), ?_⟩
    rw [isFinal]
    exact placed_setParent place isFresh.1 (Nat.ne_of_lt isFresh.2) (toCut.keeps.lt rooted)
  obtain ⟨isPlaced, place⟩ := kept
  have wrapping : Wrapping graph cut.graph placed.graph root last front condition more join back
      two.graph.size (.conditional ⟨condition, whenTrue, whenFalse, otherwise⟩) start stop finish :=
    ⟨span, closed, rooted, toCut, inside, place⟩
  refine .modifyGraph_bind fun moved isMoved movedGraph => ?_
  refine .modifyGraph_bind fun linked isLinked linkedGraph => ?_
  have isGraph : linked.graph = Forward.linked placed.graph condition two.graph.size join := by
    rw [linkedGraph, movedGraph]
    rfl
  have tight := wrapping.tight
  rw [← isGraph] at tight
  refine .bind (reaches_enclose tight) fun _ enclosed isEnclosed => ?_
  refine .tell_bind fun told sameContext sameClaims => .imp .modifyContext fun _ final isFinal => ?_
  have finalGraph : final.graph =
      (Forward.linked placed.graph condition two.graph.size join).absorb two.graph.size
        (some root) start stop := by
    rw [isFinal, sameContext, isEnclosed, ← isGraph]
    rfl
  have wraps := wrapping.wraps finalGraph
  have toCut : Session.OnlyGraph session cut := Session.OnlyGraph.trans (.of_eq isDropped) (.of_eq isCut)
  have toPlaced : Session.OnlyGraph cut placed := (Session.OnlyGraph.trans isOne isTwo).trans isPlaced
  have toLinked : Session.OnlyGraph placed linked := Session.OnlyGraph.trans (.of_eq isMoved) (.of_eq isLinked)
  have frame : Session.OnlyGraph session enclosed := ((toCut.trans toPlaced).trans toLinked).trans (.of_eq isEnclosed)
  refine ⟨two.graph.size, ⟨cut.graph, _, wraps, rfl, hasElse⟩, ?_, ?_, ?_⟩
  · exact stripsCut.of_kinds (fun id bound other => wraps.kinds id bound other) known
  · rw [isFinal, sameContext, frame]
    rfl
  · rw [isFinal, sameClaims, frame]
    rfl

end

/-! The arms -/

/-- A jump taken out of a block in the span. If nothing is left of the block, an empty node with the
same start takes its place. -/
theorem trims_replaceJump (agree : graph.Mutual) (rooted : root < graph.size)
    (bounds : ∀ id ∈ inner, id < graph.size) (member : tile ∈ inner)
    (level : (graph.node tile).parent = some root)
    (within : start < (graph.node tile).start ∧ (graph.node tile).start < stop)
    (single : ∀ jump, (graph.node tile).instructions = [jump] → jump.address = (graph.node tile).start) :
    Trims graph (graph.replaceJump tile .empty).1 root inner start stop ∧
      ((graph.node tile).instructions ≠ [] → tile ≠ root →
        Strips graph (graph.replaceJump tile .empty).1 root [tile]) := by
  unfold replaceJump
  split
  · next noLast =>
    refine ⟨.refl graph root inner start stop, fun some => absurd ?_ some⟩
    exact List.getLast?_eq_none_iff.mp noLast
  · next jump isLast =>
    have toCut : Trims graph ((graph.popInstruction tile).clearSuccessors tile) root inner start stop :=
      (Trims.mapInstructions member _).trans (.clearSuccessors member) rooted bounds
    have agreeCut : ((graph.popInstruction tile).clearSuccessors tile).Mutual :=
      mutual_clearSuccessors ((sameEdges_mapInstructions _).mutual agree) tile
    have cores := sameCores_clearSuccessors (graph.popInstruction tile) tile
    have text : (((graph.popInstruction tile).clearSuccessors tile).node tile).instructions =
        (graph.node tile).instructions.dropLast :=
      (cores.instructions tile).trans (by rw [popInstruction, instructions_mapInstructions rfl])
    have pops := strips_popInstruction graph root tile
    have strips : Strips graph ((graph.popInstruction tile).clearSuccessors tile) root [tile] :=
      ⟨fun id bound other outside => (cores.kind id).trans (pops.kept id bound other outside),
        fun id gone parts isBlock => (cores.kind id).trans (pops.cut id gone parts isBlock)⟩
    dsimp only
    generalize (graph.popInstruction tile).clearSuccessors tile = cut at toCut agreeCut text strips ⊢
    split
    · exact ⟨toCut, fun _ _ => strips⟩
    · next gone =>
      -- The block held nothing but the jump.
      have emptied : (cut.node tile).instructions = [] := by
        simpa using gone
      have only : (graph.node tile).instructions = [jump] := by
        obtain ⟨before, same⟩ := List.getLast?_eq_some_iff.mp isLast
        rw [emptied, same, List.dropLast_concat] at text
        rw [same, ← text]
        rfl
      have address := single jump only
      have bound := bounds tile member
      rw [if_pos (by simp [emptied])]
      have marked : Trims cut (cut.addNode (.sentinel .empty) jump.address jump.nextAddress (cut.node tile).parent)
          root inner start stop := .addNode agreeCut (address ▸ within)
      have toMarked := toCut.trans marked rooted bounds
      have isNew : (cut.addNode (.sentinel .empty) jump.address jump.nextAddress (cut.node tile).parent).node cut.size =
          { start := jump.address, stop := jump.nextAddress, parent := (cut.node tile).parent, kind := .sentinel .empty } := by
        rw [node_addNode, if_pos rfl]
      have isOld : (cut.addNode (.sentinel .empty) jump.address jump.nextAddress (cut.node tile).parent).node tile =
          cut.node tile := by
        rw [node_addNode, if_neg (Nat.ne_of_lt (toCut.keeps.lt bound))]
      have cutLevel : (cut.node tile).parent = some root := (toCut.keeps.parent tile bound).trans level
      have moves : Trims (cut.addNode (.sentinel .empty) jump.address jump.nextAddress (cut.node tile).parent)
          ((cut.addNode (.sentinel .empty) jump.address jump.nextAddress (cut.node tile).parent).substitute tile cut.size)
          root inner start stop := by
        refine .substitute ⟨toMarked.keeps.lt bound, by rw [isOld]; exact cutLevel⟩ ⟨by simp, by rw [isNew]; exact cutLevel⟩ ?_
        rw [isNew, isOld, toCut.keeps.start tile bound]
        exact address
      refine ⟨toMarked.trans moves rooted bounds, fun _ notRoot => strips.of_kinds (fun id isBound other => ?_)
        fun id gone => List.mem_singleton.mp gone ▸ ⟨bound, notRoot⟩⟩
      rw [kind_substitute, node_addNode, if_neg (Nat.ne_of_lt (toCut.keeps.lt isBound))]
      rw [isOld, cutLevel]
      exact fun here => other (Option.some.inj here).symm

inductive ArmEnds (graph : FlowGraph) (more : List NodeId) (target stop : Nat) : Option NodeId → Prop
  | none (empty : more = []) (joins : target = stop) : ArmEnds graph more target stop none
  | falls {tile : NodeId} (member : tile ∈ more) (stops : (graph.node tile).stop = target) (joins : target = stop)
      (goesOn : (graph.node tile).jumpTarget? = .none) (leads : startsAfter graph tile = [stop]) :
      ArmEnds graph more target stop .none
  | jumps {tile : NodeId} (member : tile ∈ more) (stops : (graph.node tile).stop = target) (before : target ≤ stop)
      (goes : (graph.node tile).jumpTarget? = some stop) (leads : startsAfter graph tile = [stop])
      (single : ∀ jump, (graph.node tile).instructions = [jump] → jump.address = (graph.node tile).start) :
      ArmEnds graph more target stop (some tile)

section

variable (span : Span graph root last front (condition :: more) (join :: back) start stop finish)
  (closed : graph.ClosedUnder id)
include span closed

theorem eq_join (level : (graph.node tile).parent = some root)
    (edge : target ∈ (graph.node tile).successors) (start : (graph.node target).start = stop) : target = join :=
  span.row.eq_of_start ((closed.levels tile target edge).trans level) (span.level (List.mem_append_right _ (.head _)))
    (start.trans span.behind.1.symm)

theorem successors_eq_join (level : (graph.node tile).parent = some root)
    (leads : startsAfter graph tile = [stop]) : (graph.node tile).successors = [join] := by
  obtain ⟨target, isTarget, start⟩ := List.map_eq_singleton_iff.mp leads
  rw [isTarget, eq_join span closed level (isTarget ▸ .head _) start]

theorem reaches_dropArmJump (first tile : NodeId) (isGraph : session.graph = graph)
    (rooted : root < graph.size) (notRoot : ∀ id ∈ condition :: more, id ≠ root) (member : tile ∈ more)
    (single : ∀ jump, (graph.node tile).instructions = [jump] → jump.address = (graph.node tile).start)
    (some : (graph.node tile).instructions ≠ []) :
    Reaches (fun _ => mayFail) (dropArmJump first tile) session fun _ next =>
      session.OnlyGraph next ∧ Trims graph next.graph root (condition :: more) start stop ∧
        Strips graph next.graph root [tile] := by
  have inner : tile ∈ condition :: more := .tail _ member
  have grows := span.covered.2.1
  have bounds := span.covered.2.2.bounds member
  obtain ⟨trims, strips⟩ := trims_replaceJump closed.edgesAgree rooted (fun id => span.bound_inner) inner
    (span.level (mem_row_of_inner inner)) (show start < _ ∧ _ < stop by omega) single
  refine .getGraph_bind (.modifyGraph_bind fun next isNext nextGraph => .pure ⟨.of_eq isNext, ?_, ?_⟩)
  · rw [nextGraph, isGraph]
    exact trims
  · rw [nextGraph, isGraph]
    exact strips some (notRoot tile inner)

theorem reaches_findArms {first : NodeId} (rooted : root < graph.size)
    (notRoot : ∀ id ∈ condition :: more, id ≠ root) (isGraph : session.graph = graph)
    (successors : (graph.node condition).successors = [first, target])
    (firstStart : (graph.node first).start = (graph.node condition).stop)
    (targetStart : (graph.node target).start = address) (ends : ArmEnds graph more address stop skip) :
    Succeeds (findArms (some root) start first target address) session fun arms next =>
      session.OnlyGraph next ∧ arms.join = join ∧ arms.joinAddress = stop ∧
        (arms.emptyElse || arms.otherwise.isSome) = skip.isSome ∧
        Trims graph next.graph root (condition :: more) start stop ∧
        Strips graph next.graph root skip.toList := by
  have level := span.level (mem_row_of_inner (.head more))
  have joins (same : address = stop) : target = join :=
    eq_join span closed level (successors ▸ by simp) (targetStart.trans same)
  have same : Trims graph session.graph root (condition :: more) start stop ∧
      Strips graph session.graph root [] := by
    rw [isGraph]
    exact ⟨.refl graph root _ start stop, fun _ _ _ _ => rfl, List.forall_mem_nil _⟩
  -- A node behind the condition that stops at the target is what the arm for true ends with.
  have found {tile : NodeId} (member : tile ∈ more) (stops : (graph.node tile).stop = address) :
      first ≠ target ∧ graph.lastNodeBefore? (some root) address = some tile := by
    have bounds := span.covered.2.2.bounds member
    refine ⟨fun same => ?_, stops ▸ span.row.lastNodeBefore?_stop (mem_row_of_inner (.tail _ member))⟩
    rw [same, targetStart] at firstStart
    omega
  unfold findArms
  cases ends with
  | none empty isStop =>
    subst empty
    have stops : (graph.node condition).stop = stop := span.covered.2.2
    have isFirst := eq_join span closed level (successors ▸ .head _) (firstStart.trans stops)
    rw [if_pos (isFirst.trans (joins isStop).symm)]
    exact .pure ⟨rfl, joins isStop, isStop, rfl, same⟩
  | falls member stops isStop goesOn leads =>
    obtain ⟨apart, isLast⟩ := found member stops
    have only := successors_eq_join span closed (span.level (mem_row_of_inner (.tail _ member))) leads
    rw [if_neg apart]
    refine .getGraph_bind ?_
    rw [isGraph, isLast]
    dsimp only
    rw [goesOn]
    dsimp only
    rw [if_pos (.inr (by rw [only, joins isStop]))]
    exact .pure ⟨rfl, joins isStop, isStop, rfl, same⟩
  | @jumps tile member stops before goes leads single =>
    obtain ⟨apart, isLast⟩ := found member stops
    have only := successors_eq_join span closed (span.level (mem_row_of_inner (.tail _ member))) leads
    have some : (graph.node tile).instructions ≠ [] := fun none => by
      simp [Node.jumpTarget?, Node.targetOf?, Node.last?, none] at goes
    have drops : Succeeds (dropArmJump first tile) session _ :=
      reaches_dropArmJump span closed first tile isGraph rooted notRoot member single some
    rw [if_neg apart]
    refine .getGraph_bind ?_
    rw [isGraph, isLast]
    dsimp only
    rw [goes]
    dsimp only
    split
    · next isStop =>
      exact .bind drops fun _ _ dropped =>
        .pure ⟨dropped.1, joins isStop.symm, isStop.symm, rfl, dropped.2⟩
    · next beyond =>
      rw [if_pos (Nat.lt_of_le_of_ne before (Ne.symm beyond)), only]
      exact .bind drops fun _ _ dropped => .pure ⟨dropped.1, rfl, rfl, rfl, dropped.2⟩

theorem reaches_buildConditional (rooted : root < graph.size)
    (notRoot : ∀ id ∈ condition :: more, id ≠ root) (isGraph : session.graph = graph)
    (branches : (graph.node condition).targetOf? .bf = some address)
    (leads : ∀ tile ∈ condition :: more, ∀ address ∈ startsAfter graph tile, start < address ∧ address ≤ stop)
    (leadsOn : startsAfter graph condition = [(graph.node condition).stop, address])
    (ends : ArmEnds graph more address stop skip) :
    Succeeds (buildConditional source condition) session fun _ next =>
      ∃ new, BuiltIf graph root last front (condition :: more) (join :: back) condition (skip.toList ++ [condition])
        skip.isSome start stop session next new := by
  have level := span.level (mem_row_of_inner (.head more))
  have begins : (graph.node condition).start = start := span.covered.1
  obtain ⟨inst, isLast, goes⟩ := Option.bind_eq_some_iff.mp branches
  obtain ⟨isOpcode, goes⟩ := Option.ite_none_right_eq_some.mp goes
  have lastOpcode : (graph.node condition).lastOpcode? = some .bf := by
    rw [Node.lastOpcode?, isLast, Option.map_some, eq_of_beq isOpcode]
  have target : (graph.node condition).target? = some address := by rw [Node.target?, isLast, Option.bind_some, goes]
  obtain ⟨first, other, successors, firstStart, otherStart⟩ : ∃ first target,
      (graph.node condition).successors = [first, target] ∧
        (graph.node first).start = (graph.node condition).stop ∧ (graph.node target).start = address := by
    obtain ⟨first, rest, isSuccessors, firstStart, more⟩ := List.map_eq_cons_iff.mp leadsOn
    obtain ⟨target, isRest, targetStart⟩ := List.map_eq_singleton_iff.mp more
    exact ⟨first, target, by rw [isSuccessors, isRest], firstStart, targetStart⟩
  have ahead : start < address := (leads condition (.head _) address (by rw [leadsOn]; simp)).1
  refine .getGraph_bind ?_
  extract_lets node begin around
  have isNode : node = graph.node condition := by rw [← isGraph]
  have isBegin : begin = start := (congrArg Node.start isNode).trans begins
  have isAround : around = some root := (congrArg Node.parent isNode).trans level
  rw [isBegin, isAround, isNode, target]
  dsimp only
  rw [if_neg (Nat.not_le_of_lt ahead), successors]
  dsimp only
  refine .bind (reaches_findArms span closed rooted notRoot isGraph successors firstStart otherStart ends) ?_
  rintro arms next ⟨isNext, isJoin, isStop, hasElse, trims, strips⟩
  have among (id : NodeId) (gone : id ∈ skip.toList) : id ∈ more ∧ id ≠ condition := by
    have isSkip := Option.mem_toList.mp gone
    have member : id ∈ more := by
      cases ends with
      | none empty isStop => cases isSkip
      | falls member stops isStop goesOn leads => cases isSkip
      | jumps member stops before goes leads single => exact Option.some.inj isSkip ▸ member
    refine ⟨member, fun same => ?_⟩
    have bounds := span.covered.2.2.bounds member
    have grows := span.covered.2.1
    rw [same, begins] at bounds
    omega
  refine .imp (reaches_wrapArms span closed leads rooted notRoot trims strips among lastOpcode isJoin isStop) ?_
  rintro _ final ⟨new, built⟩
  obtain ⟨trimmed, parts, wraps, isCondition, isElse⟩ := built.wraps
  refine ⟨new, ⟨trimmed, parts, wraps, isCondition, isElse.trans hasElse⟩, built.strips, ?_, ?_⟩
  · rw [built.frame, isNext]
    rfl
  · rw [built.claims, isNext]
    rfl

end

end Structuring.BranchNest
