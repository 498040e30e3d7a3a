import Structuring.Proofs.LoopNest.Preludes

/-! Loops built one after another.

A loop whose turn has come is built without a failure: its shape is there, its node goes where its head
is, and what it takes in has no edge across its boundary.
-/

namespace Structuring.LoopNest

open Bytecode Recovery FlowGraph

variable {source : Source} {loops : List PlacedLoop} {blocks : List BlockPlan} {finish : Nat}
  {loop : PlacedLoop} {built : List (PlacedLoop × NodeId)} {candidate : Candidate} {session : Session}
  {top : NodeId}

/-- A structure that lets nothing through is closed without a failure. -/
theorem reaches_enclose {owner : NodeId} {level : Option NodeId} {start stop : Nat}
    (tight : (session.graph.absorb owner level start stop).leak? owner = none) :
    Succeeds (enclose owner level start stop) session fun _ next =>
      next = session.withGraph (session.graph.absorb owner level start stop) := by
  refine .modifyGraph_bind fun next isNext same => .getGraph_bind ?_
  rw [openFailure?, same, tight]
  exact .pure isNext

namespace Pending

theorem reaches_shapeLoop
    (pending : Pending (source.features.has .typedBooleans) loops blocks finish built loop candidate session)
    (shape : candidate.shape = loop.shape) (headTop : NodeId) :
    Succeeds (shapeLoop source blocks.length candidate headTop) session fun shaped next =>
      ShapedAs blocks built loop candidate.tail session shaped next := by
  unfold shapeLoop
  split
  · next isShape => exact pending.reaches_while (shape.symm.trans isShape) headTop
  · next isShape => exact pending.reaches_doUntil (shape.symm.trans isShape) headTop
  · next isShape => exact pending.reaches_repeat (shape.symm.trans isShape) headTop
  · next isShape => exact pending.reaches_with (shape.symm.trans isShape) headTop

variable {typed : Bool}

/-- What is found by climbing from the head starts where the loop does. -/
theorem start_climb_head (pending : Pending typed loops blocks finish built loop candidate session)
    (climbs : session.graph.climb candidate.head (some blocks.length) = some top) :
    (session.graph.node top).start = loop.start := by
  obtain ⟨inside, start⟩ := pending.head
  have owned := pending.staged.owned
  refine owned.start_of_startsAt (owned.startsAt_climbWithin (fun entry member around => ?_)
    (.inl ⟨inside, start⟩) climbs)
  have relation := pending.ready.of_built pending.arranged.laminar (List.mem_map_of_mem member)
  have room := pending.arranged.laminar.room loop pending.ready.member
  rw [PlacedLoop.contains_iff] at around
  unfold PlacedLoop.Apart PlacedLoop.Inside at relation
  omega

/-- What is found by climbing from behind the tail starts where the loop stops. -/
theorem start_climb_exit (pending : Pending typed loops blocks finish built loop candidate session)
    {graph : FlowGraph} (keeps : Keeps session.graph graph)
    (climbs : graph.climb (candidate.tail + 1) (some blocks.length) = some top) :
    (graph.node top).start = loop.stop := by
  obtain ⟨tailInside, _, isTail⟩ := pending.tail
  have arranged := pending.arranged
  obtain ⟨next, start⟩ := arranged.behind tailInside isTail
  have owned := pending.staged.owned.later keeps
  refine owned.start_of_startsAt (owned.startsAt_climbWithin (fun entry member around => ?_)
    (.inl ⟨next, start⟩) climbs)
  have relation := pending.ready.of_built arranged.laminar (List.mem_map_of_mem member)
  have room := arranged.laminar.room loop pending.ready.member
  rw [PlacedLoop.contains_iff] at around
  unfold PlacedLoop.Apart PlacedLoop.Inside at relation
  omega

end Pending

structure BuiltNext (blocks : List BlockPlan) (built : List (PlacedLoop × NodeId)) (loop : PlacedLoop)
    (session next : Session) : Prop where
  staged : ∃ id, Staged blocks (built ++ [(loop, id)]) (built.map (·.1) ++ [loop]) next.graph ∧
    next.context = { session.context with
      graph := next.graph, loops := session.loops ++ [id] }
  claims : next.claims = session.claims

/-- A loop whose shape is settled takes in what it covers, and is told of and listed. -/
theorem Pending.reaches_insertion {typed : Bool}
    (pending : Pending typed loops blocks finish built loop candidate session)
    (closed : session.graph.ClosedUnder id)
    (climbs : session.graph.climb candidate.head (some blocks.length) = some top)
    {shaped : ShapedLoop} {first : Session}
    (isShaped : ShapedAs blocks built loop candidate.tail session shaped first)
    (clipped : Clips buildingRights session.graph first.graph) (parts : Loop) (isShape : parts.shape = shaped.shape)
    {event : Event} {next : Session}
    (isNext : next = first.withGraph (insertLoop first.graph (.loop parts) (some blocks.length)
      candidate.start shaped.stop top shaped.exit)) :
    Succeeds (do
      enclose (first.graph.size + 1) (some blocks.length) candidate.start shaped.stop
      tell event
      modifyContext fun context =>
        { context with loops := context.loops ++ [first.graph.size + 1] }) next
      fun _ final => BuiltNext blocks built loop session final := by
  have arranged := pending.arranged
  have room := arranged.laminar.room loop pending.ready.member
  have headLevel := parent_climb climbs
  have headBound := lt_size_of_parent headLevel
  have headStart := pending.start_climb_head climbs
  rw [← isShaped.keeps.parent top headBound] at headLevel
  rw [← isShaped.keeps.start top headBound] at headStart
  rw [pending.start, isShaped.stop] at isNext ⊢
  have inserted : Inserted first.graph next.graph (.loop parts) (some blocks.length)
      loop.start loop.stop top := by
    rw [isNext]
    refine inserted_insertLoop ((clipped.tends id).relinks.closed closed) (isShaped.staged.rooted arranged)
      ⟨lt_size_of_parent headLevel, headLevel⟩ headStart fun graph keeps block found isExit climbs => ?_
    have isBlock := isShaped.exit block isExit
    have start := pending.start_climb_exit (isShaped.keeps.trans keeps) (isBlock ▸ climbs)
    refine ⟨start, fun same => ?_⟩
    rw [same, keeps.start top (lt_size_of_parent headLevel), headStart] at start
    omega
  have tight := isShaped.staged.leak?_eq_none arranged pending.ready pending.tail isShaped.cleared inserted
    headLevel headStart
  refine .bind (reaches_enclose tight) fun _ closed isClosed => ?_
  refine .tell_bind fun told sameContext sameClaims => .imp .modifyContext fun _ final isFinal => ?_
  have isGraph : final.graph =
      next.graph.absorb (first.graph.size + 1) (some blocks.length) loop.start loop.stop := by
    rw [isFinal, sameContext, isClosed]
    rfl
  refine ⟨⟨first.graph.size + 1, ?_, ?_⟩, ?_⟩
  · rw [isGraph]
    exact isShaped.staged.absorb arranged inserted (isShape ▸ isShaped.family)
  · rw [isFinal, sameContext, isClosed, isNext, isShaped.frame]
    rfl
  · rw [isFinal, sameClaims, isClosed, isNext, isShaped.frame]
    rfl

theorem Pending.reaches_buildLoop
    (pending : Pending (source.features.has .typedBooleans) loops blocks finish built loop candidate session)
    (shape : candidate.shape = loop.shape) (tidied : session.Tidied True)
    (climbs : session.graph.climb candidate.head (some blocks.length) = some top)
    (tail : candidate.tail ∈ fragmentBlocks session.graph blocks.length)
    (stop : (session.graph.node candidate.tail).stop = candidate.stop) :
    Succeeds (buildLoop source blocks.length candidate) session fun _ next =>
      BuiltNext blocks built loop session next := by
  unfold buildLoop
  extract_lets level
  refine .getGraph_bind ?_
  rw [climbs, Option.getD_some]
  generalize (session.graph.climb candidate.tail level).getD candidate.tail = tailTop
  have shapes : Revises buildingRights (shapeLoop source blocks.length candidate top) session _ :=
    revises_shapeLoop id id ⟨owner_of_mem_fragmentBlocks tail,
      lt_of_mem_fragmentBlocks tidied.sound.graph tail, stop⟩ fun _ _ _ _ _ _ _ _ => trivial
  refine .bind ((pending.reaches_shapeLoop shape top).and_returns (.of_revises shapes tidied.sound)) ?_
  rintro shaped first ⟨isShaped, -, -, known⟩
  refine .addNode_bind fun second isSecond secondGraph => ?_
  refine .addNode_bind fun third isThird thirdGraph => ?_
  refine .modifyGraph_bind fun placed isPlaced placedGraph => ?_
  refine .modifyGraph_bind fun moved isMoved movedGraph => .getGraph_bind ?_
  have secondSize : second.graph.size = first.graph.size + 1 := by simp [secondGraph]
  rw [placedGraph, thirdGraph, secondGraph, size_addNode] at movedGraph
  have movedFrame : moved = first.withGraph moved.graph := by
    rw [isMoved, isPlaced, isThird, isSecond]
    rfl
  simp only [secondSize]
  split
  · next exit isExit =>
    refine .modifyGraph_bind fun next isNext nextGraph => ?_
    refine pending.reaches_insertion tidied.closed climbs isShaped known.clips
      ⟨shaped.shape, top, tailTop, shaped.body, first.graph.size⟩ rfl ?_
    rw [isNext, insertLoop, ← movedGraph, isExit, movedFrame]
    rfl
  · next noExit =>
    refine pending.reaches_insertion tidied.closed climbs isShaped known.clips
      ⟨shaped.shape, top, tailTop, shaped.body, first.graph.size⟩ rfl ?_
    rw [insertLoop, ← movedGraph, noExit, ← movedFrame]

end Structuring.LoopNest
