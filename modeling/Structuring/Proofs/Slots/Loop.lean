import Structuring.Proofs.Slots.Rising

/-! What loops hold in their slots.

The head and the tail of a loop are what is on the level of its fragment where its first and last
blocks are. The body starts there too, or behind the condition, which leads to its own level only.
-/

namespace Structuring.Recovery

open Bytecode FlowGraph

variable {source : Source} {session : Session} {fragment owner block target ref : NodeId}
  {level : Option NodeId} {every : Prop} {view : Option NodeId → Option NodeId} {context : Context}
  {shape : LoopShape}

/-- What is known of a session between structures. -/
structure Session.Tidied (every : Prop) (session : Session) : Prop where
  sound : session.Sound
  nested : session.Nested
  rooted : session.graph.Rooted
  tidy : session.graph.Tidy every
  claimed : ∀ location ∈ session.claims.switches, ∀ block ∈ location.branches,
    (session.graph.node block).kind.isBlock = true

theorem Session.Tidied.of_closed (tidied : session.Tidied every) (closed : session.graph.Closed) :
    session.Tidied True :=
  ⟨tidied.sound, tidied.nested, tidied.rooted, ⟨tidied.tidy.ordered, fun id _ ⟨target, member, apart⟩ =>
    apart (closed id target member), tidied.tidy.belongs⟩, tidied.claimed⟩

theorem Session.Tidied.closed (tidied : session.Tidied True) : session.graph.ClosedUnder id :=
  closedUnder_iff.mpr ⟨tidied.sound.graph.edges, fun id => tidied.tidy.stays id (.inl trivial)⟩

def buildingRights : Rights := Rights.full.settled.keepingClaims

/-- A step that edits nothing but structures, and leaves the graph tidy. -/
theorem Reaches.tidied {α : Type} {step : Recover α} {post : α → Session → Prop}
    (tidied : session.Tidied every) (revises : Revises buildingRights step session post)
    (tidies : Returns step session fun _ next => next.graph.Tidy every) :
    Returns step session fun _ next => Edits buildingRights session next ∧ next.Tidied every := by
  apply Reaches.imp (.and (.of_revises revises tidied.sound) tidies)
  rintro _ next ⟨⟨sound, edits, _⟩, tidy⟩
  refine ⟨edits, sound, tidied.nested.later edits id id tidied.sound,
    edits.rooted tidied.sound tidied.rooted, tidy, fun location member block among => ?_⟩
  rw [edits.claims_eq id] at member
  exact edits.isBlock (tidied.claimed location member block among)

structure Session.Tidies (every : Prop) (session next : Session) : Prop where
  edits : Edits buildingRights session next
  tidied : next.Tidied every
  thins : Thins session.graph next.graph

theorem Session.Tidies.refl (tidied : session.Tidied every) : session.Tidies every session :=
  ⟨.refl, tidied, .refl _⟩

theorem Session.Tidies.trans {next final : Session} (first : session.Tidies every next)
    (second : next.Tidies every final) : session.Tidies every final :=
  ⟨first.edits.trans second.edits, second.tidied, first.thins.trans second.thins⟩

structure Settles (every : Prop) (graph next : FlowGraph) : Prop where
  tidy : next.Tidy every
  thins : Thins graph next

theorem Reaches.tidies {α : Type} {step : Recover α} {post : α → Session → Prop}
    (tidied : session.Tidied every) (revises : Revises buildingRights step session post)
    (settles : Returns step session fun _ next => Settles every session.graph next.graph) :
    Returns step session fun _ next => session.Tidies every next :=
  .imp (.and (.tidied tidied revises (settles.imp fun _ _ kept => kept.tidy)) settles)
    fun _ _ ⟨⟨edits, tidiedNext⟩, kept⟩ => ⟨edits, tidiedNext, kept.thins⟩

/-- A structure that has taken in what it covers leaves the graph tidy. -/
theorem tidies_enclose {level : Option NodeId} {start stop : Nat}
    (rising : session.graph.Rising every owner level)
    (range : (session.graph.node owner).range = ⟨start, stop⟩) :
    Returns (enclose owner level start stop) session fun _ next =>
      Settles every session.graph next.graph ∧ next.graph = session.graph.absorb owner level start stop := by
  obtain ⟨rfl, rfl⟩ := AddressRange.mk.inj range
  refine .modifyGraph_bind fun next _ same => .getGraph_bind ?_
  split
  · exact .throw trivial
  · next tight =>
    rw [same] at tight
    refine .pure ?_
    rw [same]
    exact ⟨⟨rising.tidy_absorb (Option.map_eq_none_iff.mp tight), (Thins.refl _).eases (.absorb _ _ _ _ _)⟩, rfl⟩

/-- A structure that stands in the graph with its range takes in what it covers, and is listed. -/
theorem tidies_finish {level : Option NodeId} {start stop : Nat} {event : Event}
    {f : Context → Context} {first graph : FlowGraph} (rising : graph.Rising every owner level)
    (range : (graph.node owner).range = ⟨start, stop⟩)
    (tends : Tends (merged owner level) graph session.graph)
    (thins : Thins first session.graph) (same : ∀ context, (f context).graph = context.graph) :
    Returns (do enclose owner level start stop; tell event; modifyContext f) session fun _ next =>
      Settles every first next.graph := by
  have becomes := tends.grows.nodes owner rising.structured.owner.lt
  refine .bind (tidies_enclose (rising.tends tends) ?_) fun _ _ kept =>
    returns_announce same (Settles.mk kept.1.tidy (thins.trans kept.1.thins))
  rw [Node.range, becomes.start, becomes.stop]
  exact range

/-! Bodies -/

theorem onLevel_of_block {graph : FlowGraph} (sound : graph.Sound) (stays : graph.Stays every view)
    (isBlock : (graph.node block).kind.isBlock = true) (onLevel : view (graph.node block).parent = level)
    (member : target ∈ (graph.node block).successors) : graph.OnLevel view level target := by
  refine ⟨sound.edges.target_lt member, ?_⟩
  have same : view (graph.node target).parent = view (graph.node block).parent := by
    by_contra apart
    exact stays block (.inr isBlock) ⟨target, member, apart⟩
  exact same.trans onLevel

theorem onLevel_of_tends {graph next : FlowGraph} {node : NodeId}
    (tends : Tends view graph next) (onLevel : graph.OnLevel id level node) : next.OnLevel id level node :=
  ⟨Nat.lt_of_lt_of_le onLevel.bound tends.refills.size,
    (tends.refills.parent node onLevel.bound).trans onLevel.level⟩

theorem onLevel_of_leadsAmid {rights : Rights} {graph next : FlowGraph}
    (sound : graph.Sound) (tidy : graph.Tidy every)
    (isBlock : (graph.node block).kind.isBlock = true) (onLevel : (graph.node block).parent = level)
    (leads : LeadsAmid rights graph next block target) : next.OnLevel id level target := by
  obtain ⟨middle, toMiddle, toNext, member⟩ := leads
  have tends := toMiddle.tends id
  refine onLevel_of_tends (toNext.tends id) (onLevel_of_block (tends.sound sound) (tends.tidy sound tidy).stays
    ((tends.isBlock_eq block).trans isBlock) ?_ member)
  exact (tends.refills.parent block (lt_size_of_isBlock isBlock)).trans onLevel

variable {candidate : Candidate} {headTop : NodeId}

/-! Loops -/

def ShapedLoop.loop (shaped : ShapedLoop) (head tail after : NodeId) : Loop :=
  { shape := shaped.shape, head, tail, body := shaped.body, after }

def withLoop (graph : FlowGraph) (fragment : NodeId) (start stop : Nat) (loop : Loop) : FlowGraph :=
  ((graph.addNode (.sentinel .empty) stop stop none).addNode (.loop loop) start stop
    (some fragment)).setParent graph.size (some (graph.size + 1))

section

variable {graph : FlowGraph} {loop : Loop} {start stop : Nat}

theorem node_withLoop : (withLoop graph fragment start stop loop).node (graph.size + 1) =
    { start, stop, parent := some fragment, kind := .loop loop } := by
  unfold withLoop
  rw [setParent, node_modify, if_neg (by simp), node_addNode, if_pos (by simp)]

theorem parent_after_withLoop :
    ((withLoop graph fragment start stop loop).node graph.size).parent = some (graph.size + 1) := by
  unfold withLoop
  have bound : graph.size < ((graph.addNode (.sentinel .empty) stop stop none).addNode (.loop loop) start
      stop (some fragment)).size := by
    rw [size_addNode, size_addNode]
    exact Nat.lt_succ_of_lt (Nat.lt_succ_self _)
  rw [setParent, node_modify, if_pos ⟨rfl, bound⟩]

theorem extends_withLoop (owner : graph.Owner fragment)
    (bounds : ∀ ref ∈ (Kind.loop loop).references, ref < graph.size + 1) :
    Extends graph (withLoop graph fragment start stop loop) (graph.size + 1) (some fragment) := by
  have spares := (Spares.refl graph).addEmpty stop stop
  have size : (graph.addNode (.sentinel .empty) stop stop none).size = graph.size + 1 := size_addNode ..
  have extended : Extends graph ((graph.addNode (.sentinel .empty) stop stop none).addNode (.loop loop)
      start stop (some fragment)) (graph.size + 1) (some fragment) := by
    rw [← size]
    apply spares.addStructure rfl rfl
    · rw [size]
      exact bounds
    · rintro _ ⟨⟩
      exact owner
  apply extended.place (Nat.le_refl _)
  rw [node_addNode, if_neg (by simp), node_addNode, if_pos rfl]

end

/-- The slots of a shape hold the tail of a loop, or the block that drops its environment. -/
theorem Candidate.Shapes.slots (shapes : candidate.Shapes source context shape) {slot : Slot}
    (member : (slot, ref) ∈ shape.slots) : slot = .incrementor ∧ ref = candidate.tail ∨ slot = .breakBlock := by
  cases shapes with
  | whileLoop _ counts => cases counts <;> simp_all [LoopShape.slots]
  | doUntil _ => cases member
  | repeatLoop _ => cases member
  | withLoop _ _ =>
    obtain ⟨_, _, same⟩ := List.mem_map.mp member
    cases same
    exact .inr rfl

theorem LoopShape.mem_references_of_mem_slots {slot : Slot}
    (member : (slot, ref) ∈ shape.slots) : ref ∈ shape.references := by
  cases shape <;> simp_all [LoopShape.slots, LoopShape.references]

theorem raises_loop {graph : FlowGraph} {shaped : ShapedLoop} {tailTop : NodeId}
    (sound : graph.Sound) (isFragment : ∃ parts, (graph.node fragment).kind = .fragment parts)
    (headLevel : (graph.node headTop).parent = some fragment)
    (tailLevel : (graph.node tailTop).parent = some fragment)
    (tailBelow : graph.Below (some fragment) candidate.tail)
    (bound : ∀ ref ∈ shaped.shape.references, ref < graph.size)
    (shape : candidate.Shapes source context shaped.shape)
    (body : ∀ id, shaped.body = some id → (graph.node id).parent = some fragment) (start stop : Nat) :
    Raises graph (withLoop graph fragment start stop (shaped.loop headTop tailTop graph.size))
      (graph.size + 1) (some fragment) := by
  have owner : graph.Owner fragment := by
    obtain ⟨parts, isKind⟩ := isFragment
    rw [Owner, isKind]
    rfl
  have bounds (ref : NodeId) (member : ref ∈ (Kind.loop (shaped.loop headTop tailTop graph.size)).references) :
      ref < graph.size + 1 := by
    simp only [Kind.references, ShapedLoop.loop, List.mem_cons, List.mem_append, Option.mem_toList] at member
    rcases member with rfl | rfl | rfl | isBody | among
    · exact Nat.lt_succ_of_lt (lt_size_of_parent headLevel)
    · exact Nat.lt_succ_of_lt (lt_size_of_parent tailLevel)
    · exact Nat.lt_succ_self _
    · exact Nat.lt_succ_of_lt (lt_size_of_parent (body ref isBody))
    · exact Nat.lt_succ_of_lt (bound ref among)
  have extended : Extends graph
      (withLoop graph fragment start stop (shaped.loop headTop tailTop graph.size)) (graph.size + 1)
      (some fragment) := extends_withLoop owner bounds
  refine ⟨extended, fun slot ref member => ?_⟩
  have afterParent : ((withLoop graph fragment start stop (shaped.loop headTop tailTop graph.size)).node
      graph.size).parent = some (graph.size + 1) := parent_after_withLoop
  rw [node_withLoop] at member
  generalize withLoop graph fragment start stop (shaped.loop headTop tailTop graph.size) = next
    at extended afterParent
  have parent (id : NodeId) (bound : id < graph.size) : (next.node id).parent = (graph.node id).parent := by
    rw [extended.old id bound]
  have onLevel {slot : Slot} {ref : NodeId} (loose : slot.isLoose = true)
      (inside : (graph.node ref).parent = some fragment) :
      ref ≠ graph.size + 1 ∧ next.Prepared (graph.size + 1) (some fragment) slot ref := by
    have bound := lt_size_of_parent inside
    exact ⟨extended.lt_owner bound, .beside ((parent ref bound).trans inside) (.inl loose)⟩
  simp only [Kind.slots, ShapedLoop.loop, List.mem_cons, List.mem_append, List.mem_map,
    Option.mem_toList, Prod.mk.injEq] at member
  rcases member with ⟨rfl, rfl⟩ | ⟨rfl, rfl⟩ | ⟨rfl, rfl⟩ | ⟨_, isBody, rfl, rfl⟩ | among
  · exact onLevel rfl headLevel
  · exact onLevel rfl tailLevel
  · exact ⟨Nat.ne_of_lt (Nat.lt_succ_self _), .made afterParent⟩
  · exact onLevel rfl (body _ isBody)
  · -- The slots of the shape name blocks, which may be deep inside or in another fragment.
    have bound := bound ref (LoopShape.mem_references_of_mem_slots among)
    refine ⟨extended.lt_owner bound, ?_⟩
    rcases shape.slots among with ⟨rfl, rfl⟩ | rfl
    · exact .named rfl ((below_congr parent sound bound).mpr tailBelow)
    · by_cases inside : graph.Below (some fragment) ref
      · exact .named rfl ((below_congr parent sound bound).mpr inside)
      · refine .elsewhere rfl rfl ?_ fun above => inside ((below_congr parent sound bound).mp above)
        rw [extended.old fragment owner.lt]
        exact isFragment

section

variable (tidied : session.Tidied every) (head : candidate.head ∈ fragmentBlocks session.graph fragment)
  (tail : candidate.tail ∈ fragmentBlocks session.graph fragment)
  (stop : (session.graph.node candidate.tail).stop = candidate.stop)

include tidied head tail stop

theorem tidies_buildLoop :
    Returns (buildLoop source fragment candidate) session fun _ next =>
      Settles every session.graph next.graph := by
  have sound := tidied.sound.graph
  have isFragment := isFragment_of_mem_fragmentBlocks head
  have owner : session.graph.Owner fragment := owner_of_mem_fragmentBlocks head
  have headBound := lt_of_mem_fragmentBlocks sound head
  have tailBound := lt_of_mem_fragmentBlocks sound tail
  have tailBelow := (tidied.nested fragment _ tail).2
  obtain ⟨headTop, headClimbs⟩ := (tidied.nested fragment _ head).2.climb sound headBound
  obtain ⟨tailTop, tailClimbs⟩ := tailBelow.climb sound tailBound
  have headLevel := parent_climb headClimbs
  have tailLevel := parent_climb tailClimbs
  unfold buildLoop
  extract_lets level
  refine .getGraph_bind ?_
  rw [headClimbs, tailClimbs, Option.getD_some, Option.getD_some]
  have shapes : Revises buildingRights (shapeLoop source fragment candidate headTop) session _ :=
    revises_shapeLoop id id ⟨owner, tailBound, stop⟩
      fun _ _ _ _ _ _ _ _ => trivial
  refine .bind (.of_revises shapes tidied.sound) ?_
  rintro shaped first ⟨firstSound, toFirst, known⟩
  have tends := known.clips.tends id
  have parent := tends.refills.parent
  have body (body : NodeId) (isBody : shaped.body = some body) :
      (first.graph.node body).parent = some fragment := by
    rcases known.body body isBody with rfl | ⟨cut, block, toCut, inside, isBlock, leads⟩
    · exact (parent body (lt_size_of_parent headLevel)).trans headLevel
    · have toCut := toCut.tends id
      exact (onLevel_of_leadsAmid (toCut.sound sound) (toCut.tidy sound tidied.tidy) isBlock inside leads).level
  have raises := raises_loop firstSound.graph
    ((tends.grows.nodes fragment owner.lt).kind.fragment_iff.mpr isFragment)
    ((parent headTop (lt_size_of_parent headLevel)).trans headLevel)
    ((parent tailTop (lt_size_of_parent tailLevel)).trans tailLevel)
    ((below_congr parent sound tailBound).mpr tailBelow)
    (fun _ member => toFirst.lt (known.shape.lt tidied.sound tailBound member)) known.shape body
    candidate.start shaped.stop
  have rising := raises.rising firstSound.graph (toFirst.rooted tidied.sound tidied.rooted)
    (tends.tidy sound tidied.tidy)
  have oldLevel : (first.graph.node headTop).parent = level :=
    (parent headTop (lt_size_of_parent headLevel)).trans headLevel
  refine .addNode_bind fun second _ isSecond => ?_
  refine .addNode_bind fun third _ isThird => ?_
  refine .modifyGraph_bind fun placed _ isPlaced => ?_
  have isLoop : second.graph.size = first.graph.size + 1 := by
    rw [isSecond, size_addNode]
  rw [isThird, isLoop, isSecond] at isPlaced
  rw [isLoop]
  change placed.graph = withLoop first.graph fragment candidate.start shaped.stop
    (shaped.loop headTop tailTop first.graph.size) at isPlaced
  have range : (placed.graph.node (first.graph.size + 1)).range = ⟨candidate.start, shaped.stop⟩ := by
    rw [isPlaced, node_withLoop]
    rfl
  rw [← isPlaced] at raises rising
  generalize first.graph.size + 1 = loop at *
  have headKept : (placed.graph.node headTop).parent = level := by
    rw [raises.old headTop (lt_size_of_parent oldLevel)]
    exact oldLevel
  refine .modifyGraph_bind fun moved _ isMoved => .getGraph_bind ?_
  have toMoved : Tends (merged loop level) placed.graph moved.graph :=
    isMoved ▸ rising.tends_substitute (lt_size_of_parent headKept) headKept
  have thins := raises.thins_replace headTop
  rw [← isMoved] at thins
  split
  · next exit isExit =>
    obtain ⟨_, _, climbs⟩ := Option.bind_eq_some_iff.mp isExit
    have exitLevel := parent_climb climbs
    refine .modifyGraph_bind fun next _ isNext => ?_
    apply tidies_finish rising range _ _ (by intro; rfl)
    · rw [isNext]
      exact toMoved.trans ((rising.tends toMoved).tends_addEdge (lt_size_of_parent exitLevel) exitLevel)
    · rw [isNext]
      exact known.clips.thins.trans (thins exit).2
  · exact tidies_finish rising range toMoved (known.clips.thins.trans (thins loop).1) (by intro; rfl)

theorem tidied_buildLoop :
    Returns (buildLoop source fragment candidate) session fun _ next => session.Tidies every next := by
  have headBound := lt_of_mem_fragmentBlocks tidied.sound.graph head
  have tailBound := lt_of_mem_fragmentBlocks tidied.sound.graph tail
  have revises : Revises buildingRights (buildLoop source fragment candidate) session _ :=
    revises_buildLoop trivial id id (isFragment_of_mem_fragmentBlocks head) headBound tailBound stop (.inl trivial)
      fun _ _ _ _ _ _ _ _ => trivial
  exact .tidies tidied revises (tidies_buildLoop tidied head tail stop)

end

theorem tidies_buildFragmentLoops (tidied : session.Tidied every) :
    Returns (buildFragmentLoops source fragment) session fun _ next => session.Tidies every next := by
  refine .getGraph_bind ?_
  have found := yields_findCandidates session.graph fragment
  split
  · exact .throw trivial
  · next candidates isFound =>
    rw [isFound] at found
    have among := yields_orderCandidates candidates
    split
    · exact .throw trivial
    · next ordered isOrdered =>
      rw [isOrdered] at among
      refine .bind (.forM (session.Tidies every) (.refl tidied) fun candidate member next before => ?_)
        fun _ _ kept => .pure kept
      obtain ⟨head, tail, stop, _⟩ := found candidate (among candidate member)
      have edits := before.edits
      have stop := (edits.grows.nodes _ (lt_of_mem_fragmentBlocks tidied.sound.graph tail)).stop.trans stop
      rw [← edits.fragmentBlocks_eq id fragment] at head tail
      exact (tidied_buildLoop before.tidied head tail stop).imp fun _ _ more => before.trans more

theorem tidies_buildLoops (tidied : session.Tidied every) :
    Returns (buildLoops source) session fun _ next => session.Tidies every next := by
  refine .getContext_bind (.foldlM (fun _ => session.Tidies every) (.refl tidied) ?_)
  intro fragment _ changed next before
  exact .bind (tidies_buildFragmentLoops before.tidied) fun _ _ more => .pure (before.trans more)

end Structuring.Recovery
