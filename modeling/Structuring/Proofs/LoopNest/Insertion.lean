import Structuring.Proofs.LoopNest.Stage

/-! A loop put in its place.

The node of a loop takes the place of what is at its head, leads on to what is behind its tail, and
takes in what starts between. No edge crosses its boundary then.
-/

namespace Structuring

open Bytecode Recovery

namespace FlowGraph

variable {graph : FlowGraph}

/-! Edges that are led elsewhere -/

theorem predecessors_movePredecessors_self {old new : NodeId} (apart : old ≠ new) (graph : FlowGraph) :
    ((graph.movePredecessors old new).node old).predecessors = [] := by
  unfold movePredecessors
  refine List.foldlRecOn (motive := fun next : FlowGraph => (next.node old).predecessors = []) _ _ ?_ ?_
  · rw [mapPredecessors, node_modify]
    split
    · rfl
    · next outside =>
      rw [node_of_size_le (Nat.le_of_not_lt fun bound => outside ⟨rfl, bound⟩)]
      rfl
  · intro next none source _
    rw [mapPredecessors, node_modify, if_neg fun here => apart here.1.symm, predecessors_mapSuccessors]
    exact none

theorem not_mem_successors_substitute (agree : graph.Mutual) {old new : NodeId} (apart : old ≠ new)
    (bound : new < graph.size) (id : NodeId) : old ∉ ((graph.substitute old new).node id).successors := by
  have moved : old ∉ ((graph.movePredecessors old new).node id).successors := by
    rw [← (mutual_movePredecessors agree old bound).mem_predecessors_iff,
      predecessors_movePredecessors_self apart]
    exact List.not_mem_nil
  unfold substitute
  dsimp only
  split
  · rwa [(sameEdges_mapKind _).successors]
  · exact moved

theorem kind_substitute {old other : NodeId} (new : NodeId) (apart : (graph.node old).parent ≠ some other) :
    ((graph.substitute old new).node other).kind = (graph.node other).kind := by
  have moved := sameCores_movePredecessors graph old new
  unfold substitute
  dsimp only
  split
  · next parent isParent =>
    rw [moved.parent] at isParent
    rw [mapKind, node_modify, if_neg, moved.kind]
    exact fun here => apart (here.1 ▸ isParent)
  · exact moved.kind other

/-! What a structure takes in -/

/-- A structure is closed if the edges on the level around it join only what it takes in, or only
what it leaves. -/
theorem leak?_absorb {owner : NodeId} {level : Option NodeId} {start stop : Nat} (closed : graph.ClosedUnder id)
    (whole : ∀ source, ∀ target ∈ (graph.node source).successors, (graph.node source).parent = level →
      (source ≠ owner ∧ (graph.node source).startsWithin start stop = true ↔
        target ≠ owner ∧ (graph.node target).startsWithin start stop = true)) :
    (graph.absorb owner level start stop).leak? owner = none := by
  have edges : SameEdges graph (graph.absorb owner level start stop) := sameEdges_absorb owner level start stop
  have agree := closed.edgesAgree
  -- The two ends of an edge are both inside or both outside.
  have together (source target : NodeId) (member : target ∈ (graph.node source).successors) :
      ((graph.absorb owner level start stop).node source).parent = some owner ↔
        ((graph.absorb owner level start stop).node target).parent = some owner := by
    have level : (graph.node target).parent = (graph.node source).parent := closed.levels source target member
    have whole := whole source target member
    have sourceBound := lt_size_of_mem_successors member
    have targetBound := agree.target_lt member
    simp only [node_absorb, sourceBound, targetBound, true_and, level]
    split <;> split <;> simp_all
  refine List.find?_eq_none.mpr fun child member => ?_
  have isChild : ((graph.absorb owner level start stop).node child).parent = some owner := by
    have among := mem_stableSort.mp member
    simpa using (List.mem_filter.mp among).2
  simp only [leaksFrom, edges.successors, edges.predecessors, Bool.not_eq_true, Bool.or_eq_false_iff]
  refine ⟨List.any_eq_false.mpr fun other isOther => ?_, List.any_eq_false.mpr fun other isOther => ?_⟩
  · simpa using (together child other isOther).mp isChild
  · simpa using (together other child (agree.mem_predecessors_iff.mp isOther)).mpr isChild

end FlowGraph

namespace LoopNest

open FlowGraph

variable {graph next : FlowGraph}

/-! The node of a loop -/

def insertLoop (graph : FlowGraph) (kind : Kind) (level : Option NodeId) (start stop : Nat)
    (headTop : NodeId) (exit : Option NodeId) : FlowGraph :=
  let made := (graph.addNode (.sentinel .empty) stop stop none).addNode kind start stop level
  let moved := (made.setParent graph.size (some (graph.size + 1))).substitute headTop (graph.size + 1)
  match exit.bind fun exit => moved.climb exit level with
  | some exit => moved.addEdge (graph.size + 1) exit
  | none => moved

structure Inserted (graph next : FlowGraph) (kind : Kind) (level : Option NodeId) (start stop : Nat)
    (headTop : NodeId) : Prop where
  size : next.size = graph.size + 2
  keeps : Keeps graph next
  kinds : ∀ id < graph.size, level ≠ some id → (next.node id).kind = (graph.node id).kind
  listed : ∀ id < graph.size, fragmentBlocks next id = fragmentBlocks graph id
  after : (next.node graph.size).parent = some (graph.size + 1) ∧
    (next.node graph.size).kind = .sentinel .empty ∧ (next.node graph.size).successors = []
  loop : (next.node (graph.size + 1)).kind = kind ∧ (next.node (graph.size + 1)).parent = level ∧
    (next.node (graph.size + 1)).start = start ∧ (next.node (graph.size + 1)).stop = stop
  exits : ∀ target ∈ (next.node (graph.size + 1)).successors, (next.node target).start = stop
  edges : ∀ id < graph.size, startsAfter next id = startsAfter graph id
  replaced : ∀ id, headTop ∉ (next.node id).successors
  closed : next.ClosedUnder id

theorem node_made (graph : FlowGraph) (kind : Kind) (level : Option NodeId) (start stop : Nat) (id : Nat) :
    ((((graph.addNode (.sentinel .empty) stop stop none).addNode kind start stop level).setParent
        graph.size (some (graph.size + 1))).node id) =
      if id = graph.size + 1 then { start, stop, parent := level, kind }
      else if id = graph.size then
        { start := stop, stop, parent := some (graph.size + 1), kind := .sentinel .empty }
      else graph.node id := by
  simp only [setParent, node_modify, node_addNode, size_addNode]
  by_cases isLoop : id = graph.size + 1
  · simp [isLoop]
  · by_cases isAfter : id = graph.size
    · subst isAfter
      have added : graph.size = graph.size ∧ graph.size < graph.size + 1 + 1 := ⟨rfl, by omega⟩
      rw [if_pos added]
      simp
    · simp [isLoop, isAfter, Ne.symm isAfter]

/-- Nodes that lead to the same addresses, whether to the same nodes or not. -/
theorem startsAfter_congr {id : NodeId} (look : NodeId → Nat) (agree : graph.Mutual)
    (nextAgree : next.Mutual) (starts : ∀ target < graph.size, (graph.node target).start = look target)
    (nextStarts : ∀ target < next.size, (next.node target).start = look target)
    (same : (next.node id).successors.map look = (graph.node id).successors.map look) :
    startsAfter next id = startsAfter graph id :=
  calc
    startsAfter next id = (next.node id).successors.map look :=
      List.map_congr_left fun target member => nextStarts target (nextAgree.target_lt member)
    _ = (graph.node id).successors.map look := same
    _ = startsAfter graph id :=
      List.map_congr_left fun target member => (starts target (agree.target_lt member)).symm

variable {kind : Kind} {level : Option NodeId} {start stop headTop : Nat}

theorem inserted_substitute (closed : graph.ClosedUnder id) (fresh : level ≠ some (graph.size + 1))
    (notAfter : level ≠ some graph.size) (head : graph.OnLevel id level headTop)
    (headStart : (graph.node headTop).start = start) :
    Inserted graph
      ((((graph.addNode (.sentinel .empty) stop stop none).addNode kind start stop level).setParent
        graph.size (some (graph.size + 1))).substitute headTop (graph.size + 1))
      kind level start stop headTop := by
  have nodes := node_made graph kind level start stop
  have closedMade : ((graph.addNode (.sentinel .empty) stop stop none).addNode kind start stop level).ClosedUnder
      id := (Relinks.addNode _ _ _ _ _).closed ((Relinks.addNode _ _ _ _ _).closed closed)
  have closedPlaced : (((graph.addNode (.sentinel .empty) stop stop none).addNode kind start stop
      level).setParent graph.size (some (graph.size + 1))).ClosedUnder id :=
    closedMade.setParent (by simp [node_addNode]) (by simp [node_addNode]) _
  have placedSize : (((graph.addNode (.sentinel .empty) stop stop none).addNode kind start stop level).setParent
      graph.size (some (graph.size + 1))).size = graph.size + 2 := by simp
  generalize ((graph.addNode (.sentinel .empty) stop stop none).addNode kind start stop level).setParent
    graph.size (some (graph.size + 1)) = placed at nodes closedPlaced placedSize ⊢
  have old (id : Nat) (bound : id < graph.size) : placed.node id = graph.node id := by
    rw [nodes, if_neg (by omega), if_neg (by omega)]
  have isAfter : placed.node graph.size =
      { start := stop, stop, parent := some (graph.size + 1), kind := .sentinel .empty } := by
    rw [nodes, if_neg (by omega), if_pos rfl]
  have isLoop : placed.node (graph.size + 1) = { start, stop, parent := level, kind } := by
    rw [nodes, if_pos rfl]
  have headBound : headTop < graph.size := head.bound
  have headParent : (placed.node headTop).parent = level := by
    rw [old headTop headBound]
    exact head.level
  have moves := Keeps.substitute placed headTop (graph.size + 1)
  have loopBound : graph.size + 1 < placed.size := by omega
  have loopLevel : placed.OnLevel id level (graph.size + 1) := ⟨loopBound, by rw [isLoop]; rfl⟩
  -- The loop starts where its head does, so no edge leads to another address than before.
  have edges (id : Nat) : ((placed.substitute headTop (graph.size + 1)).node id).successors.map
      (fun target => (placed.node target).start) =
        (placed.node id).successors.map fun target => (placed.node target).start := by
    refine map_successors_substitute _ ?_ placed id
    rw [isLoop, old headTop headBound, headStart]
  have closedMoved := (Relinks.substitute ⟨Nat.lt_trans headBound (by omega), headParent⟩ loopLevel).closed closedPlaced
  have keepsPlaced : Keeps graph placed := ⟨by omega, fun id bound => by rw [old id bound],
    fun id bound => by rw [old id bound], fun id bound => by rw [old id bound]⟩
  have none (id : Nat) (isNone : (placed.node id).successors = []) :
      ((placed.substitute headTop (graph.size + 1)).node id).successors = [] := by
    have same := edges id
    rw [isNone] at same
    exact List.map_eq_nil_iff.mp same
  refine ⟨?_, keepsPlaced.trans moves, fun id bound other => ?_, fun id bound => ?_, ⟨?_, ?_, ?_⟩,
    ⟨?_, ?_, ?_, ?_⟩, ?_, fun id bound => ?_, ?_, closedMoved⟩
  · rw [size_substitute, placedSize]
  · rw [kind_substitute, old id bound]
    rw [headParent]
    exact other
  · rw [fragmentBlocks_substitute, FlowGraph.fragmentBlocks_eq, FlowGraph.fragmentBlocks_eq, old id bound]
  · rw [parent_substitute, isAfter]
  · rw [kind_substitute, isAfter]
    rw [headParent]
    exact notAfter
  · exact none graph.size (by rw [isAfter])
  · rw [kind_substitute, isLoop]
    rw [headParent]
    exact fresh
  · rw [parent_substitute, isLoop]
  · rw [moves.start _ loopBound, isLoop]
  · rw [moves.stop _ loopBound, isLoop]
  · intro target member
    rw [none (graph.size + 1) (by rw [isLoop])] at member
    cases member
  · refine startsAfter_congr (fun target => (placed.node target).start) closed.edgesAgree
      closedMoved.edgesAgree (fun target inside => by rw [old target inside])
      (fun target inside => moves.start target (size_substitute headTop (graph.size + 1) ▸ inside)) ?_
    rw [edges id, old id bound]
  · intro id
    exact not_mem_successors_substitute closedPlaced.edgesAgree (Nat.ne_of_lt (by omega)) loopBound id

theorem Inserted.addEdge (inserted : Inserted graph next kind level start stop headTop)
    {exit : NodeId} (onLevel : next.OnLevel id level exit)
    (exitStart : (next.node exit).start = stop) (other : exit ≠ headTop) :
    Inserted graph (next.addEdge (graph.size + 1) exit) kind level start stop headTop := by
  have cores : SameCores next (next.addEdge (graph.size + 1) exit) := sameCores_addEdge _ _
  have loopBound : graph.size + 1 < next.size := by
    rw [inserted.size]
    omega
  have edges := successors_addEdge loopBound exit
  have closed := (Relinks.addEdge ⟨loopBound, inserted.loop.2.1⟩ onLevel).closed inserted.closed
  refine ⟨cores.size.trans inserted.size, inserted.keeps.trans (.of_sameCores cores),
    fun id bound other => (cores.kind id).trans (inserted.kinds id bound other),
    fun id bound => (cores.fragmentBlocks id).trans (inserted.listed id bound), ⟨?_, ?_, ?_⟩,
    ⟨?_, ?_, ?_, ?_⟩, fun target member => ?_, fun id bound => ?_, fun id member => ?_, closed⟩
  · rw [cores.parent, inserted.after.1]
  · rw [cores.kind, inserted.after.2.1]
  · rw [edges, if_neg (Nat.succ_ne_self _), inserted.after.2.2]
  · rw [cores.kind, inserted.loop.1]
  · rw [cores.parent, inserted.loop.2.1]
  · rw [cores.start, inserted.loop.2.2.1]
  · rw [cores.stop, inserted.loop.2.2.2]
  · rw [edges, if_pos rfl] at member
    rw [cores.start]
    rcases List.mem_append.mp member with old | new
    · exact inserted.exits target old
    · rw [List.mem_singleton.mp new, exitStart]
  · rw [← inserted.edges id bound]
    refine startsAfter_congr (fun target => (next.node target).start) inserted.closed.edgesAgree
      closed.edgesAgree (fun _ _ => rfl) (fun target _ => cores.start target) ?_
    rw [edges, if_neg (Nat.ne_of_gt (Nat.lt_succ_of_lt bound))]
  · rw [edges] at member
    split at member
    · rcases List.mem_append.mp member with old | new
      · exact inserted.replaced _ old
      · exact other (List.mem_singleton.mp new).symm
    · exact inserted.replaced id member

theorem inserted_insertLoop {fragment : Nat} (closed : graph.ClosedUnder id) {exit : Option NodeId}
    (known : fragment < graph.size) (head : graph.OnLevel id (some fragment) headTop)
    (headStart : (graph.node headTop).start = start)
    (leads : ∀ next, Keeps graph next → ∀ block top, exit = some block →
      next.climb block (some fragment) = some top → (next.node top).start = stop ∧ top ≠ headTop) :
    Inserted graph (insertLoop graph kind (some fragment) start stop headTop exit) kind (some fragment) start
      stop headTop := by
  have inserted : Inserted graph _ kind (some fragment) start stop headTop :=
    inserted_substitute closed (fun same => Nat.ne_of_lt (Nat.lt_succ_of_lt known) (Option.some.inj same))
      (fun same => Nat.ne_of_lt known (Option.some.inj same)) head headStart
  unfold insertLoop
  dsimp only
  generalize (((graph.addNode (.sentinel .empty) stop stop none).addNode kind start stop
    (some fragment)).setParent graph.size (some (graph.size + 1))).substitute headTop (graph.size + 1) =
      moved at inserted ⊢
  split
  · next top found =>
    obtain ⟨block, isExit, climbs⟩ := Option.bind_eq_some_iff.mp found
    obtain ⟨topStart, other⟩ := leads moved inserted.keeps block top isExit climbs
    have level := parent_climb climbs
    exact inserted.addEdge ⟨lt_size_of_parent level, level⟩ topStart other
  · exact inserted

/-! The next stage -/

section

variable {typed : Bool} {loops : List PlacedLoop} {blocks : List BlockPlan} {finish : Nat}
  {loop : PlacedLoop} {built : List (PlacedLoop × NodeId)} {gone : List PlacedLoop}

theorem Staged.rooted (arranged : Arranged typed loops blocks finish)
    (staged : Staged blocks built gone graph) : blocks.length < graph.size := by
  refine Nat.lt_of_not_le fun outside => ?_
  have listed := staged.listed
  rw [FlowGraph.fragmentBlocks_eq, node_of_size_le outside] at listed
  obtain ⟨block, isFirst, _⟩ := arranged.first
  have := (List.getElem?_eq_some_iff.mp isFirst).1
  have none : blocks.length = 0 := by simpa [Node.absent, Kind.members] using listed
  omega

theorem Staged.startsAt (staged : Staged blocks built gone graph) {id : NodeId}
    (level : (graph.node id).parent = some blocks.length) :
    Owned.StartsAt blocks built (graph.node id).start id := by
  rcases staged.level id level with inside | ⟨entry, member, rfl⟩
  · exact .inl ⟨inside, (staged.owned.start id inside).symm⟩
  · exact .inr ⟨entry, member, rfl, (staged.owned.loopStart entry member).symm⟩

/-- No edge crosses the boundary of a loop that has taken in what it covers. -/
theorem Staged.leak?_eq_none (arranged : Arranged typed loops blocks finish)
    (ready : Ready loops (built.map (·.1)) loop)
    (staged : Staged blocks built (built.map (·.1) ++ [loop]) graph) {tail : Nat}
    (isTail : ∃ (inside : tail < blocks.length) (ending : List Instruction),
      blocks[tail].scaffold = some ⟨loop, .tail, ending⟩)
    (cleared : (graph.node tail).successors = [])
    (inserted : Inserted graph next kind (some blocks.length) loop.start loop.stop headTop)
    (headLevel : (graph.node headTop).parent = some blocks.length)
    (headStart : (graph.node headTop).start = loop.start) :
    (next.absorb (graph.size + 1) (some blocks.length) loop.start loop.stop).leak? (graph.size + 1) =
      none := by
  have rooted := staged.rooted arranged
  have room := arranged.laminar.room loop ready.member
  refine leak?_absorb inserted.closed fun source target member level => ?_
  have targetLevel : (next.node target).parent = some blocks.length :=
    (inserted.closed.levels source target member).trans level
  have notAfter (id : Nat) (onLevel : (next.node id).parent = some blocks.length) : id ≠ graph.size := by
    rintro rfl
    rw [inserted.after.1] at onLevel
    have := Option.some.inj onLevel
    omega
  have known (id : Nat) (onLevel : (next.node id).parent = some blocks.length) :
      id = graph.size + 1 ∨ id < graph.size := by
    have bound : id < next.size := lt_size_of_parent onLevel
    have := notAfter id onLevel
    rw [inserted.size] at bound
    omega
  simp only [Node.startsWithin, Bool.and_eq_true, decide_eq_true_eq]
  rcases known source level with rfl | bound
  · rw [inserted.exits target member]
    exact iff_of_false (fun taken => taken.1 rfl) fun taken => by omega
  · rw [inserted.keeps.parent source bound] at level
    have among : (next.node target).start ∈ startsAfter graph source := by
      rw [← inserted.edges source bound]
      exact List.mem_map_of_mem member
    have crosses := staged.crossing arranged ready isTail cleared (staged.level source level) among
    rw [inserted.keeps.start source bound, and_iff_right (Nat.ne_of_lt (Nat.lt_succ_of_lt bound)), crosses]
    rcases known target targetLevel with rfl | targetBound
    · rw [inserted.loop.2.2.1]
      exact iff_of_false (fun inside => absurd inside.1 (Nat.lt_irrefl _)) fun taken => taken.1 rfl
    · rw [and_iff_right (Nat.ne_of_lt (Nat.lt_succ_of_lt targetBound))]
      -- Only the head starts where the loop does, and nothing leads to it any more.
      have notHead : (next.node target).start ≠ loop.start := by
        intro same
        rw [inserted.keeps.start target targetBound] at same
        rw [inserted.keeps.parent target targetBound] at targetLevel
        have extents (entry) (listed : entry ∈ built) : entry.1.start < entry.1.stop := by
          have := arranged.laminar.room _ (ready.among _ (List.mem_map_of_mem listed))
          omega
        have isHead := staged.owned.eq_of_startsAt arranged extents (same ▸ staged.startsAt targetLevel)
          (headStart ▸ staged.startsAt headLevel) targetLevel headLevel
        exact inserted.replaced source (isHead ▸ member)
      omega

theorem parent_absorb (graph : FlowGraph) (taker : NodeId) (level : Option NodeId) (start stop id : Nat) :
    ((graph.absorb taker level start stop).node id).parent =
      if id < graph.size ∧ id ≠ taker ∧ (graph.node id).parent = level ∧
          (graph.node id).startsWithin start stop then some taker
      else (graph.node id).parent := by
  rw [node_absorb]
  split <;> rfl

theorem startsWithin_eq (node : Node) (loop : PlacedLoop) :
    node.startsWithin loop.start loop.stop = loop.contains node.start := rfl

/-- A node that was inside the loops built before is inside those built now. -/
theorem level_absorb {root id taker : Nat} {around : List (PlacedLoop × NodeId)}
    (above : ∀ entry ∈ around, root < entry.2) (apart : id ≠ taker)
    (level : (graph.node id).parent = some (owner root around (graph.node id).start)) :
    ((graph.absorb taker (some root) loop.start loop.stop).node id).parent =
      some (owner root (around ++ [(loop, taker)]) (graph.node id).start) := by
  have bound := lt_size_of_parent level
  rw [parent_absorb, owner_concat above, level, startsWithin_eq]
  simp only [bound, apart, ne_eq, not_false_eq_true, true_and, Option.some.injEq]
  split <;> rfl

theorem Owned.absorb (owned : Owned blocks built graph) {id : Nat} (fresh : blocks.length < id)
    (apart : ∀ entry ∈ built, entry.2 ≠ id) (start : (graph.node id).start = loop.start)
    (stop : (graph.node id).stop = loop.stop) (level : (graph.node id).parent = some blocks.length) :
    Owned blocks (built ++ [(loop, id)]) (graph.absorb id (some blocks.length) loop.start loop.stop) := by
  have starts (other : Nat) : ((graph.absorb id (some blocks.length) loop.start loop.stop).node other).start =
      (graph.node other).start := by
    rw [node_absorb]
    split <;> rfl
  have stops (other : Nat) : ((graph.absorb id (some blocks.length) loop.start loop.stop).node other).stop =
      (graph.node other).stop := by
    rw [node_absorb]
    split <;> rfl
  have cases {entry : PlacedLoop × NodeId} (member : entry ∈ built ++ [(loop, id)]) :
      entry ∈ built ∨ entry = (loop, id) := by simpa using member
  refine ⟨fun index inside => ?_, fun index inside => ?_, fun index inside => ?_, fun entry member => ?_,
    fun entry member => ?_, fun entry member => ?_, fun place inside => ?_⟩
  · rw [starts, owned.start index inside]
  · rw [stops, owned.stop index inside]
  · rw [← owned.start index inside]
    refine level_absorb owned.above (by omega) ?_
    rw [owned.parent index inside, owned.start index inside]
  · rcases cases member with old | rfl
    · exact owned.above entry old
    · exact fresh
  · rw [starts]
    rcases cases member with old | rfl
    · exact owned.loopStart entry old
    · exact start
  · rw [stops]
    rcases cases member with old | rfl
    · exact owned.loopStop entry old
    · exact stop
  · rcases Nat.lt_or_ge place built.length with old | new
    · have member : built[place] ∈ built := List.getElem_mem old
      have isOld : (built ++ [(loop, id)])[place] = built[place] := List.getElem_append_left old
      rw [isOld, List.drop_append_of_le_length old, ← owned.loopStart _ member]
      refine level_absorb (fun entry later => owned.above entry (List.mem_of_mem_drop later))
        (apart _ member) ?_
      rw [owned.loopParent place old, owned.loopStart _ member]
    · obtain rfl : place = built.length := by simp at inside; omega
      have isNew : (built ++ [(loop, id)])[built.length] = (loop, id) := by simp
      rw [isNew, parent_absorb, if_neg fun taken => taken.2.1 rfl, level]
      simp [owner]

theorem Staged.isFragment (arranged : Arranged typed loops blocks finish)
    (listed : fragmentBlocks graph blocks.length = List.range blocks.length) :
    (graph.node blocks.length).kind.isBlock = false := by
  obtain ⟨block, isFirst, _⟩ := arranged.first
  have some := (List.getElem?_eq_some_iff.mp isFirst).1
  unfold fragmentBlocks at listed
  split at listed
  · next isKind => rw [isKind]; rfl
  · have none : blocks.length = 0 := by simpa using listed
    omega

theorem Staged.absorb (arranged : Arranged typed loops blocks finish)
    (staged : Staged blocks built gone graph) {parts : Loop}
    (inserted : Inserted graph next (.loop parts) (some blocks.length) loop.start loop.stop headTop)
    (family : familyOf parts.shape = loop.shape) :
    Staged blocks (built ++ [(loop, graph.size + 1)]) gone
      (next.absorb (graph.size + 1) (some blocks.length) loop.start loop.stop) := by
  have rooted := staged.rooted arranged
  have owned := staged.owned.later inserted.keeps
  have loopFresh : blocks.length < graph.size + 1 := by omega
  have apart (entry) (member : entry ∈ built) : entry.2 ≠ graph.size + 1 :=
    Nat.ne_of_lt (Nat.lt_succ_of_lt (staged.owned.loopBound member))
  have isLevel := owned.absorb loopFresh apart inserted.loop.2.2.1 inserted.loop.2.2.2 inserted.loop.2.1
  have parents := parent_absorb next (graph.size + 1) (some blocks.length) loop.start loop.stop
  have edges : SameEdges next (next.absorb (graph.size + 1) (some blocks.length) loop.start loop.stop) :=
    sameEdges_absorb _ _ _ _
  have cores (id : Nat) {α : Type} (field : Node → α)
      (fixed : ∀ node parent, field { node with parent } = field node) :
      field ((next.absorb (graph.size + 1) (some blocks.length) loop.start loop.stop).node id) =
        field (next.node id) := by
    rw [node_absorb]
    split
    · exact fixed _ _
    · rfl
  generalize next.absorb (graph.size + 1) (some blocks.length) loop.start loop.stop = final
    at isLevel parents edges cores ⊢
  have kinds (id : Nat) : (final.node id).kind = (next.node id).kind := cores id (·.kind) fun _ _ => rfl
  have starts (id : Nat) : startsAfter final id = startsAfter next id := by
    unfold startsAfter
    rw [edges.successors]
    exact List.map_congr_left fun target _ => cores target (·.start) fun _ _ => rfl
  have listed : fragmentBlocks final blocks.length = List.range blocks.length := by
    rw [FlowGraph.fragmentBlocks_eq, kinds, ← FlowGraph.fragmentBlocks_eq, inserted.listed _ rooted,
      staged.listed]
  have fragment := Staged.isFragment arranged listed
  have old (id : Nat) (bound : id < graph.size) (other : id ≠ blocks.length) :
      (final.node id).kind = (graph.node id).kind := by
    rw [kinds, inserted.kinds id bound fun same => other (Option.some.inj same).symm]
  have nodes (id : Nat) : id < graph.size ∨ id = graph.size ∨ id = graph.size + 1 ∨ next.size ≤ id := by
    rw [inserted.size]
    omega
  have structures (id : Nat) (outside : blocks.length ≤ id) : (final.node id).kind.isBlock = false := by
    by_cases isFragment : id = blocks.length
    · exact isFragment ▸ fragment
    · rcases nodes id with bound | rfl | rfl | absent
      · rw [old id bound isFragment]
        exact staged.structures id outside
      · rw [kinds, inserted.after.2.1]
        rfl
      · rw [kinds, inserted.loop.1]
        rfl
      · rw [kinds, node_of_size_le absent]
        rfl
  -- What is no block has no branch, before and after.
  have targets (id : Nat) (bound : id < graph.size) : (final.node id).target? = (graph.node id).target? := by
    by_cases isBlock : id < blocks.length
    · have same := old id bound (Nat.ne_of_lt isBlock)
      simp only [Node.target?, Node.last?, Node.instructions, same]
    · have outside := Nat.le_of_not_lt isBlock
      have none {node : Node} (isStructure : node.kind.isBlock = false) : node.target? = none := by
        refine Option.eq_none_iff_forall_ne_some.mpr fun target goes => ?_
        obtain ⟨inst, isLast, _⟩ := Option.bind_eq_some_iff.mp goes
        exact absurd (isStructure.symm.trans (Node.isBlock_of_last? isLast)) Bool.false_ne_true
      rw [none (structures id outside), none (staged.structures id outside)]
  refine ⟨isLevel, fun index inside => ?_, fun entry member => ?_, structures, listed, fun id level => ?_,
    fun id start member => ?_, fun index inside other ending isScaffold undone => ?_⟩
  · rw [old index (staged.owned.bound inside) (Nat.ne_of_lt inside), staged.kinds index inside]
  · rcases List.mem_append.mp member with early | new
    · have bound := staged.owned.loopBound early
      rw [old entry.2 bound (Nat.ne_of_gt (staged.owned.above entry early))]
      exact staged.loops entry early
    · rw [List.mem_singleton.mp new]
      exact ⟨parts, (kinds _).trans inserted.loop.1, family⟩
  · have level : (next.node id).parent = some blocks.length := by
      rw [parents] at level
      split at level
      · have : graph.size + 1 = blocks.length := Option.some.inj level
        omega
      · exact level
    rcases nodes id with bound | rfl | rfl | absent
    · rw [inserted.keeps.parent id bound] at level
      rcases staged.level id level with inside | ⟨entry, member, same⟩
      · exact .inl inside
      · exact .inr ⟨entry, List.mem_append_left _ member, same⟩
    · rw [inserted.after.1] at level
      have : graph.size + 1 = blocks.length := Option.some.inj level
      omega
    · exact .inr ⟨_, List.mem_append_right _ (.head _), rfl⟩
    · rw [node_of_size_le absent] at level
      exact absurd level (by simp [Node.absent])
  · rw [starts] at member
    rcases nodes id with bound | rfl | rfl | absent
    · rw [inserted.edges id bound] at member
      rw [targets id bound, cores id (·.stop) fun _ _ => rfl, inserted.keeps.stop id bound]
      exact staged.edges id start member
    · rw [startsAfter, inserted.after.2.2] at member
      cases member
    · obtain ⟨target, isTarget, rfl⟩ := List.mem_map.mp member
      left
      rw [cores _ (·.stop) fun _ _ => rfl, inserted.loop.2.2.2]
      exact inserted.exits target isTarget
    · rw [startsAfter, node_of_size_le absent] at member
      cases member
  · rw [starts, inserted.edges index (staged.owned.bound inside)]
    exact staged.preludes index inside other ending isScaffold undone

end

end LoopNest

end Structuring
