import Structuring.Proofs.Places
import Structuring.Proofs.Returns
import Structuring.Proofs.Slices

/-! The edges between blocks.

Once blocks are linked, a block leads exactly where its last instruction lets control go. Whether
linking fails depends on nothing but the targets of branches.
-/

namespace Structuring

open Bytecode Recovery

namespace FlowGraph

variable {graph next : FlowGraph}

theorem SameCores.blockAt? (same : SameCores graph next) (blocks : List NodeId) (address : Nat) :
    next.blockAt? blocks address = graph.blockAt? blocks address := by
  unfold FlowGraph.blockAt?
  congr 1
  funext block
  rw [same.start]

def exits (graph : FlowGraph) (blocks : List NodeId) (id : NodeId) (next : Option NodeId) :
    List NodeId :=
  (if fallsThrough (graph.node id) then next.toList else []) ++
    ((graph.node id).target?.bind (graph.blockAt? blocks)).toList

theorem SameCores.target? (same : SameCores graph next) (id : NodeId) :
    (next.node id).target? = (graph.node id).target? := by
  simp only [Node.target?, Node.last?, same.instructions id]

theorem SameCores.fallsThrough (same : SameCores graph next) (id : NodeId) :
    fallsThrough (next.node id) = fallsThrough (graph.node id) := by
  unfold Recovery.fallsThrough Node.last?
  rw [same.instructions id]

theorem SameCores.exits (same : SameCores graph next) (blocks : List NodeId) (id : NodeId)
    (after : Option NodeId) : next.exits blocks id after = graph.exits blocks id after := by
  have found : next.blockAt? blocks = graph.blockAt? blocks := funext (same.blockAt? blocks)
  simp only [FlowGraph.exits, same.fallsThrough id, same.target? id, found]

end FlowGraph

namespace Recovery

open FlowGraph

variable {mayFail : Prop} {session : Session} {blocks : List NodeId}

def Lands (graph : FlowGraph) (blocks ids : List NodeId) : Prop :=
  ∀ id ∈ ids, ∀ target, (graph.node id).target? = some target →
    ∃ destination, graph.blockAt? blocks target = some destination

structure Linked (session final : Session) (blocks ids : List NodeId) : Prop where
  frame : final = session.withGraph final.graph
  cores : SameCores session.graph final.graph
  others : ∀ other ∉ ids, (final.graph.node other).successors = (session.graph.node other).successors
  exits : ∀ (index : Nat) (inside : index < ids.length),
    (final.graph.node ids[index]).successors =
      (session.graph.node ids[index]).successors ++ session.graph.exits blocks ids[index] ids[index + 1]?
  lands : Lands session.graph blocks ids

structure LinkedAt (session final : Session) (blocks : List NodeId) (id : NodeId)
    (next : Option NodeId) : Prop where
  frame : final = session.withGraph final.graph
  cores : SameCores session.graph final.graph
  successors : ∀ other, (final.graph.node other).successors =
    if id = other then (session.graph.node id).successors ++
      session.graph.exits blocks id next
    else (session.graph.node other).successors
  lands : Lands session.graph blocks [id]

theorem reaches_linkBlock {id : NodeId} {next : Option NodeId} (bound : id < session.graph.size)
    (lands : ¬mayFail → Lands session.graph blocks [id]) :
    Reaches (fun _ => mayFail) (linkBlock blocks id next) session fun _ final =>
      LinkedAt session final blocks id next := by
  refine .getGraph_bind ?_
  extract_lets node branch
  -- The first edge is there or not. The second one depends on the branch only.
  have onward (later : Session) (frame : later = session.withGraph later.graph)
      (cores : SameCores session.graph later.graph)
      (first : ∀ other, (later.graph.node other).successors =
        if id = other then (session.graph.node id).successors ++
          (if fallsThrough (session.graph.node id) then next.toList else [])
        else (session.graph.node other).successors) :
      Reaches (fun _ => mayFail) (branch ()) later fun _ final => LinkedAt session final blocks id next := by
    dsimp only [branch]
    split
    · next noTarget =>
      refine .pure ⟨frame, cores, fun other => ?_, fun other member target goes => ?_⟩
      · rw [first other, exits, show (session.graph.node id).target? = none from noTarget]
        simp
      · rw [List.mem_singleton.mp member] at goes
        exact absurd (noTarget.symm.trans goes) (by simp)
    · next target isTarget =>
      have isTarget : (session.graph.node id).target? = some target := isTarget
      refine .getGraph_bind ?_
      rw [cores.blockAt? blocks target]
      split
      · next destination found =>
        refine .imp .modifyGraph fun _ final isFinal => ?_
        have graph : final.graph = later.graph.addEdge id destination := by
          rw [isFinal, Session.withGraph]
        refine ⟨?_, graph ▸ cores.trans (sameCores_addEdge id destination), fun other => ?_,
          fun other member address goes => ?_⟩
        · rw [isFinal, frame]
          rfl
        · rw [graph, successors_addEdge (cores.size ▸ bound), first id, first other, exits, isTarget]
          split <;> simp [found]
        · rw [List.mem_singleton.mp member, isTarget] at goes
          exact ⟨destination, Option.some.inj goes ▸ found⟩
      · next missing =>
        refine .throw (Classical.byContradiction fun never => ?_)
        obtain ⟨destination, found⟩ := lands never id (.head _) target isTarget
        exact absurd (missing.symm.trans found) (by simp)
  cases next with
  | none =>
    refine onward session rfl (.refl _) fun other => ?_
    by_cases here : id = other
    · simp [here]
    · simp [here]
  | some after =>
    dsimp only
    split
    · next falls =>
      refine .modifyGraph_bind fun later isLater graph => onward later ?_ ?_ fun other => ?_
      · rw [isLater]
        rfl
      · exact graph ▸ sameCores_addEdge id after
      · rw [graph, successors_addEdge bound, if_pos (show fallsThrough _ = true from falls)]
        rfl
    · next stays =>
      have stays : fallsThrough (session.graph.node id) ≠ true := stays
      refine onward session rfl (.refl _) fun other => ?_
      rw [if_neg stays, List.append_nil]
      by_cases here : id = other
      · simp [here]
      · simp [here]

theorem reaches_linkBlocks (ids : List NodeId) (nodup : ids.Nodup)
    (bounds : ∀ id ∈ ids, id < session.graph.size) (lands : ¬mayFail → Lands session.graph blocks ids) :
    Reaches (fun _ => mayFail) (linkBlocks blocks ids) session fun _ final => Linked session final blocks ids := by
  induction ids generalizing session with
  | nil =>
    refine .pure ⟨rfl, .refl _, fun _ _ => rfl, fun index inside => ?_, ?_⟩
    · exact absurd inside (Nat.not_lt_zero index)
    · exact List.forall_mem_nil _
  | cons id rest ih =>
    obtain ⟨fresh, nodup⟩ := List.nodup_cons.mp nodup
    refine .bind (reaches_linkBlock (bounds id (.head _)) fun never other member => ?_) ?_
    · exact lands never other (List.mem_singleton.mp member ▸ .head _)
    intro _ next one
    have same := one.cores
    refine .imp (ih nodup (fun other member => same.size ▸ bounds other (.tail _ member)) ?_) ?_
    · intro never other member target goes
      rw [same.target?] at goes
      rw [same.blockAt?]
      exact lands never other (.tail _ member) target goes
    intro _ final many
    refine ⟨?_, same.trans many.cores, fun other outside => ?_, fun index inside => ?_,
      fun other member target goes => ?_⟩
    · rw [many.frame, one.frame]
      rfl
    · rw [many.others other fun member => outside (.tail _ member), one.successors,
        if_neg (List.ne_of_not_mem_cons outside).symm]
    · cases index with
      | zero =>
        rw [List.getElem_cons_zero, many.others id fresh, one.successors, if_pos rfl,
          List.getElem?_cons_succ, ← List.head?_eq_getElem?]
      | succ index =>
        have inside : index < rest.length := Nat.lt_of_succ_lt_succ inside
        have apart : id ≠ rest[index] := fun here => fresh (here ▸ List.getElem_mem inside)
        rw [List.getElem_cons_succ, many.exits index inside, one.successors, if_neg apart, same.exits,
          List.getElem?_cons_succ]
    · rcases List.mem_cons.mp member with rfl | old
      · exact one.lands other (.head _) target goes
      · rw [← same.target?] at goes
        rw [← same.blockAt?]
        exact many.lands other old target goes

/-! Blocks made from slices of code -/

def blockNode (index : Nat) (slice : AddressRange × List Instruction) : Node :=
  { start := slice.1.start
    stop := slice.1.stop
    parent := none
    kind := .block { index, instructions := slice.2 } }

structure Added (session final : Session) (index : Nat)
    (slices : List (AddressRange × List Instruction)) : Prop where
  context : final.context =
    { session.context with
      graph := final.graph
      blocks := session.blocks ++ List.range' session.graph.size slices.length }
  claims : final.claims = session.claims
  size : final.graph.size = session.graph.size + slices.length
  old : ∀ id < session.graph.size, final.graph.node id = session.graph.node id
  new : ∀ (place : Nat) (inside : place < slices.length),
    final.graph.node (session.graph.size + place) = blockNode (index + place) slices[place]

theorem reaches_addBlocks (index : Nat) (slices : List (AddressRange × List Instruction)) :
    Reaches (fun _ => mayFail) (addBlocks index slices) session fun _ final =>
      Added session final index slices := by
  induction slices generalizing session index with
  | nil =>
    refine .pure ⟨?_, rfl, rfl, fun _ _ => rfl, fun place inside => ?_⟩
    · simp
    · exact absurd inside (Nat.not_lt_zero place)
  | cons slice rest ih =>
    refine .addNode_bind fun made isMade madeGraph => ?_
    refine .bind .modifyContext fun _ listed isListed => ?_
    have graph : listed.graph = session.graph.addNode
        (.block { index, instructions := slice.2 }) slice.1.start slice.1.stop none := by
      rw [isListed, isMade, Session.withGraph]
    have size : listed.graph.size = session.graph.size + 1 := by rw [graph, size_addNode]
    refine .imp (ih (index + 1)) fun _ final many => ⟨?_, ?_, ?_, fun id bound => ?_, fun place inside => ?_⟩
    · rw [many.context, size, isListed, isMade]
      simp [Session.withGraph, List.range'_succ]
    · rw [many.claims, isListed, isMade, Session.withGraph]
    · rw [many.size, size, List.length_cons]
      omega
    · rw [many.old id (by omega), graph, node_addNode, if_neg (Nat.ne_of_lt bound)]
    · cases place with
      | zero =>
        rw [Nat.add_zero, many.old _ (by omega), graph, node_addNode, if_pos rfl]
        rfl
      | succ place =>
        have inside : place < rest.length := Nat.lt_of_succ_lt_succ inside
        have new := many.new place inside
        rw [size, Nat.add_right_comm, Nat.add_right_comm index] at new
        exact new

/-- There is a block for each slice, linked to where it leads, and nothing else. -/
structure Context.Blocked (slices : List (AddressRange × List Instruction)) (context : Context) :
    Prop where
  whole : context =
    { graph := context.graph, blocks := List.range slices.length }
  size : context.graph.size = slices.length
  core : ∀ (index : Nat) (inside : index < slices.length),
    (context.graph.node index).core = blockNode index slices[index]
  successors : ∀ index < slices.length, (context.graph.node index).successors =
    context.graph.exits (List.range slices.length) index (List.range slices.length)[index + 1]?
  lands : Lands context.graph (List.range slices.length) (List.range slices.length)

namespace Context.Blocked

variable {slices : List (AddressRange × List Instruction)} {context : Context}
  (blocked : context.Blocked slices)

include blocked

theorem blocks_eq : context.blocks = List.range slices.length := by rw [blocked.whole]

theorem map_eq {α : Type} {read : Node → α} {part : AddressRange × List Instruction → α}
    (same : ∀ node index slice, node.core = blockNode index slice → read node = part slice) :
    context.blocks.map (fun block => read (context.graph.node block)) = slices.map part := by
  rw [blocked.blocks_eq]
  refine List.ext_getElem (by simp) fun index inside bound => ?_
  rw [List.length_map] at bound
  rw [List.getElem_map, List.getElem_map, List.getElem_range]
  exact same _ index _ (blocked.core index bound)

theorem map_start : context.blocks.map (fun block => (context.graph.node block).start) =
    slices.map (·.1.start) := blocked.map_eq fun _ _ _ core => congrArg Node.start core

end Context.Blocked

theorem target_mem_cutPoints {code : Code} {inst : Instruction} {target : Nat}
    (member : inst ∈ code.instructions) (goes : inst.branchTarget? = some target) :
    target ∈ cutPoints code := by
  refine mem_foldr_insertCut.mpr (List.mem_append_left _ (.tail _ (.tail _ ?_)))
  exact List.mem_flatMap.mpr ⟨inst, member, by simp [instructionCuts, goes]⟩

/-- The code is cut at every target of a branch, so a block starts there. -/
theorem lands_of_slices {code : Code} (rising : Rising code.instructions) {graph : FlowGraph}
    {slices : List (AddressRange × List Instruction)}
    (isSlices : sliceAt (cutPoints code) code.instructions = slices)
    (nodes : ∀ (place : Nat) (inside : place < slices.length),
      graph.node place = blockNode place slices[place]) :
    Lands graph (List.range slices.length) (List.range slices.length) := by
  intro id member target goes
  have inside := List.mem_range.mp member
  rw [nodes id inside] at goes
  obtain ⟨inst, last, goes⟩ := Option.bind_eq_some_iff.mp goes
  have among : inst ∈ slices[id].2 := List.mem_of_getLast? last
  have listed : slices[id] ∈ sliceAt (cutPoints code) code.instructions := by
    rw [isSlices]
    exact List.getElem_mem inside
  have isSlice := isSlice_cutPoints rising listed
  have isCut := target_mem_cutPoints (isSlice.sublist.subset among) goes
  rw [← map_start_sliceAt (cutPoints code) code.instructions, isSlices] at isCut
  obtain ⟨slice, isSlice, starts⟩ := List.mem_map.mp isCut
  obtain ⟨place, bound, rfl⟩ := List.getElem_of_mem isSlice
  refine Option.isSome_iff_exists.mp (List.find?_isSome.mpr ⟨place, List.mem_range.mpr bound, ?_⟩)
  rw [nodes place bound]
  exact beq_iff_eq.mpr starts

theorem reaches_buildBlocks {source : Source} (rising : Rising source.code.instructions)
    (fresh : session.context = {}) (cuts : ¬mayFail → cutFailure? source.code = none) :
    Reaches (fun _ => mayFail) (buildBlocks source) session fun changed next =>
      changed = true ∧ next.claims = session.claims ∧
        next.context.Blocked (sliceAt (cutPoints source.code) source.code.instructions) := by
  generalize isSlices : sliceAt (cutPoints source.code) source.code.instructions = slices
  refine .getContext_bind ?_
  rw [fresh]
  extract_lets build
  have builds : Reaches (fun _ => mayFail) (build ()) session fun changed next =>
      changed = true ∧ next.claims = session.claims ∧ next.context.Blocked slices := by
    dsimp only [build]
    rw [isSlices]
    refine .bind (reaches_addBlocks 0 slices) fun _ added isAdded => .getContext_bind ?_
    have blocks : added.blocks = List.range slices.length := by
      rw [isAdded.context, fresh, List.range_eq_range']
      rfl
    have size : added.graph.size = slices.length := by
      rw [isAdded.size, fresh]
      exact Nat.zero_add _
    have nodes (place : Nat) (inside : place < slices.length) :
        added.graph.node place = blockNode place slices[place] := by
      have new := isAdded.new place inside
      rw [fresh] at new
      simpa [FlowGraph.size] using new
    rw [blocks]
    refine .bind (reaches_linkBlocks _ List.nodup_range (fun id member => ?_) fun _ => ?_) ?_
    · rw [size]
      exact List.mem_range.mp member
    · exact lands_of_slices rising isSlices nodes
    intro _ linked isLinked
    refine .tell_bind fun told context claims => .pure ⟨rfl, ?_, ?_⟩
    · rw [claims, isLinked.frame]
      exact isAdded.claims
    have cores := isLinked.cores
    have linkedContext : linked.context =
        { graph := linked.graph, blocks := List.range slices.length } := by
      rw [isLinked.frame]
      simp only [Session.withGraph]
      rw [isAdded.context, fresh, List.range_eq_range']
      rfl
    rw [← context] at linkedContext cores
    refine ⟨linkedContext, cores.size.trans size, fun index inside => ?_, fun index inside => ?_, ?_⟩
    · rw [cores.core, nodes index inside]
      rfl
    · have exits := isLinked.exits index (List.length_range ▸ inside)
      rw [List.getElem_range, nodes index inside] at exits
      rw [context, exits, isLinked.cores.exits]
      rfl
    · intro id member target goes
      rw [cores.target?] at goes
      rw [cores.blockAt?]
      exact isLinked.lands id member target goes
  simp only [List.isEmpty_nil, Bool.not_true, Bool.false_eq_true, ↓reduceIte]
  split
  · next failure found =>
    refine .throw_bind (Classical.byContradiction fun never => ?_)
    exact absurd (cuts never ▸ found) (by simp)
  · exact builds

end Recovery

end Structuring
