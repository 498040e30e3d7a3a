import Structuring.Proofs.Passes.Loop

/-! What jumps in loops mean.

Inner loops are built first, so some blocks in the range of a loop are already inside another one. What
such a loop has left of their jumps stays in its range or leaves a switch. So the first loop around a new
sentinel is the one that it was made for, unless the target of its jump is in the range of the other.
-/

namespace Structuring.Recovery

open Bytecode FlowGraph

variable {rights : Rights} {source : Source} {session first next : Session} {candidate : Candidate}
  {fragment block tail loop id : NodeId} {which : Sentinel} {target : Nat}

/-- Blocks come one after the other, and no branch goes into the middle of one. -/
structure Session.Tiled (source : Source) (session : Session) : Prop where
  apart : ∀ block other, (session.graph.node block).kind.isBlock = true →
    (session.graph.node other).kind.isBlock = true →
    (session.graph.node block).start < (session.graph.node other).stop →
    (session.graph.node block).stop ≤ (session.graph.node other).stop
  lands : ∀ block, (session.graph.node block).kind.isBlock = true → ∀ inst ∈ source.code.instructions, ∀ target,
    inst.branchTarget? = some target → (session.graph.node block).start < target →
    (session.graph.node block).stop ≤ target
  follows : ∀ block after, session.context.nextBlock? block = some after →
    (session.graph.node block).start < (session.graph.node after).start

theorem Session.Tiled.later (tiled : session.Tiled source) (edits : Edits rights session next)
    (whole : ¬rights.cuts) (sound : session.Sound) : next.Tiled source := by
  have still {id : NodeId} (isBlock : (next.graph.node id).kind.isBlock = true) :
      (session.graph.node id).kind.isBlock = true ∧ (session.graph.node id).Becomes (next.graph.node id) := by
    rw [edits.isBlock_eq whole] at isBlock
    exact ⟨isBlock, edits.grows.nodes id (lt_size_of_isBlock isBlock)⟩
  constructor
  · intro block other isBlock isOther before
    obtain ⟨isBlock, becomes⟩ := still isBlock
    obtain ⟨isOther, later⟩ := still isOther
    rw [becomes.start, later.stop] at before
    rw [becomes.stop, later.stop]
    exact tiled.apart block other isBlock isOther before
  · intro block isBlock inst member target goes before
    obtain ⟨isBlock, becomes⟩ := still isBlock
    rw [becomes.start] at before
    rw [becomes.stop]
    exact tiled.lands block isBlock inst member target goes before
  · intro block after found
    obtain ⟨isBlock, becomes⟩ := still (isBlock_of_nextBlock? found)
    rw [edits.nextBlock?_eq whole isBlock] at found
    rw [becomes.start, (edits.grows.nodes after (lt_of_nextBlock? sound found)).start]
    exact tiled.follows block after found

/-- A block is on the level of its function or directly in a loop. If that loop has it in its range, its
jump stays there or leaves a switch. -/
def Session.Settled (session : Session) : Prop :=
  ∀ fragment, ∀ block ∈ fragmentBlocks session.graph fragment,
    (session.graph.node block).parent = some fragment ∨
      ∃ loop, (session.graph.node block).parent = some loop ∧ (∃ parts, (session.graph.node loop).kind = .loop parts) ∧
        (Surrounds session.graph loop block → ∀ target, (session.graph.node block).jumpTarget? = some target →
          ((session.graph.node loop).start ≤ target ∧ target < (session.graph.node loop).stop) ∨
            session.claims.isSwitchExit (session.graph.node block).start target = true)

/-- What is known of a session while loops are built. -/
structure Session.Looping (source : Source) (session : Session) : Prop where
  traced : Traced source session
  nested : session.Nested
  init : ∀ id, Bare (session.graph.node id).instructions.dropLast
  settled : session.Settled

theorem Session.Tiled.of_same (tiled : session.Tiled source) (context : next.context = session.context) :
    next.Tiled source := by
  obtain ⟨apart, lands, follows⟩ := tiled
  rw [← context] at apart lands follows
  exact ⟨apart, lands, follows⟩

theorem Session.Looping.of_same (looping : session.Looping source) (context : next.context = session.context)
    (claims : next.claims = session.claims) : next.Looping source := by
  obtain ⟨traced, nested, init, settled⟩ := looping
  unfold Session.Nested at nested
  unfold Session.Settled at settled
  rw [← context] at nested init settled
  rw [← claims] at settled
  exact ⟨traced.of_same context claims, nested, init, settled⟩

def Candidate.needs (candidate : Candidate) (source : Source) (session : Session)
    (fragment : NodeId) : Rights :=
  { Rights.none with
    marks := fun block jump sentinel =>
      block ∈ blocksWithin session.graph fragment candidate.start (candidate.extent source session.context) ∧
        ∃ target, jump.targetOf? .b = some target ∧
          candidate.Means source session.context (session.graph.node fragment).stop target sentinel ∧
          session.claims.isSwitchExit (session.graph.node block).start target = false
    encloses := True
    reshapes := ¬session.graph.Below (some fragment) candidate.head }

/-- What is known of a candidate when it is built. -/
structure Candidate.Pending (candidate : Candidate) (source : Source) (session : Session) (fragment : NodeId) :
    Prop where
  head : candidate.head ∈ fragmentBlocks session.graph fragment
  tail : candidate.tail ∈ fragmentBlocks session.graph fragment
  back : candidate.shape ≠ .withLoop →
    ∃ inst, Holds source (session.graph.node candidate.tail) inst ∧ inst.branchTarget? = some candidate.start

theorem DropIdiom.Follows.dropsAfter {idiom : DropIdiom} {start : Nat}
    (follows : idiom.Follows session.context tail)
    (isTail : isEnvironmentTail (session.graph.node tail) start = true) (code : HoldsCode source session.graph) :
    DropsAfter source session.context start idiom.target tail idiom.drop := by
  obtain ⟨back, isBack, goes⟩ := targetOf?_of_isEnvironmentTail isTail
  obtain ⟨across, isAcross, leaves⟩ := follows.across
  obtain ⟨inst, isOnly, isDrop⟩ := follows.drops
  exact ⟨⟨idiom.jump, follows.jump, follows.drop, ⟨back, code _ back (by simp [isBack]), goes⟩, across,
    code _ across (by simp [isAcross]), leaves⟩, inst, code _ inst (by simp [isOnly]), isDrop⟩

theorem Candidate.Pending.not_reshapes (pending : candidate.Pending source session fragment)
    (nested : session.Nested) : ¬(candidate.needs source session fragment).reshapes :=
  fun apart => apart (nested fragment _ pending.head).2

namespace Candidate.Built

variable (built : candidate.Built (candidate.needs source session fragment) source session first next fragment loop)

include built

theorem edits : Edits (candidate.needs source session fragment) session next :=
  built.shaping.trans (built.placing.mono (Rights.unmarked_within _))

theorem start : (next.graph.node loop).start = candidate.start := (AddressRange.mk.inj built.range).1

theorem stop : (next.graph.node loop).stop = candidate.extent source session.context :=
  (AddressRange.mk.inj built.range).2

/-- The range of a loop ends with its tail, or after the block that drops its environment. -/
theorem extent_cases (code : HoldsCode source session.graph) :
    candidate.extent source session.context = (session.graph.node candidate.tail).stop ∨
      ∃ idiom, candidate.idiom? source session.context = some idiom ∧
        candidate.extent source session.context = idiom.target ∧ idiom.Follows session.context candidate.tail ∧
        DropsAfter source session.context candidate.start idiom.target candidate.tail idiom.drop := by
  unfold Candidate.extent
  cases isIdiom : candidate.idiom? source session.context with
  | none => exact .inl rfl
  | some idiom =>
    obtain ⟨⟨isWith, _⟩, found⟩ := Option.ite_none_right_eq_some.mp isIdiom
    have follows := dropIdiom?_spec found
    exact .inr ⟨idiom, rfl, rfl, follows, follows.dropsAfter (built.back isWith) code⟩

variable (pending : candidate.Pending source session fragment) (sound : session.Sound) (tiled : session.Tiled source)
  (looping : session.Looping source)

include pending looping

theorem exists_back : ∃ inst, Holds source (session.graph.node candidate.tail) inst ∧
    inst.branchTarget? = some candidate.start := by
  by_cases isWith : candidate.shape = .withLoop
  · obtain ⟨inst, isOnly, goes⟩ := targetOf?_of_isEnvironmentTail (built.back isWith)
    exact ⟨inst, looping.traced.code _ inst (by simp [isOnly]), (Option.ite_none_right_eq_some.mp goes).2⟩
  · exact pending.back isWith

include sound in
theorem reason (meant : Meant next.graph block id target loop)
    (why : candidate.Means source session.context (session.graph.node fragment).stop target which) :
    Reason source next.context fragment block id target which := by
  have edits := built.edits
  have tailBound := lt_of_mem_fragmentBlocks sound.graph pending.tail
  have tail := edits.grows.nodes candidate.tail tailBound
  have dropped := built.extent_cases looping.traced.code
  cases which with
  | breaks =>
    rcases why with rfl | ⟨idiom, isIdiom, rfl⟩
    · exact .loopEnd meant built.stop
    · obtain ⟨ref, has, stands⟩ := built.drop (fun cuts => cuts) (pending.not_reshapes looping.nested) idiom isIdiom
      obtain ⟨⟨isWith, _⟩, found⟩ := Option.ite_none_right_eq_some.mp isIdiom
      have extent : candidate.extent source session.context = idiom.target := by
        rw [Candidate.extent, isIdiom]
        rfl
      have drops := (dropIdiom?_spec found).dropsAfter (built.back isWith) looping.traced.code
      have later := drops.later sound edits fun cuts => cuts
      rw [← extent, ← built.start, ← built.stop] at later
      exact .environmentDrop meant later (edits.grows.nodes _ (drops.lt sound)).start has stands
  | continues =>
    rcases why with rfl | rfl
    · exact .loopStart meant built.start
    · obtain ⟨inst, holds, goes⟩ := built.exists_back pending looping
      have member := edits.fragmentBlocks_eq (fun owns => owns) fragment ▸ pending.tail
      refine .loopTail meant member tail.start (holds.later tail) (built.start ▸ goes) ?_
      rcases dropped with same | ⟨idiom, isIdiom, same, _, drops⟩
      · exact .inl (tail.stop.trans (same.symm.trans built.stop.symm))
      · obtain ⟨ref, has, _⟩ := built.drop (fun cuts => cuts) (pending.not_reshapes looping.nested) idiom isIdiom
        have later := drops.later sound edits fun cuts => cuts
        rw [← same, ← built.start, ← built.stop] at later
        exact .inr ⟨idiom.drop, by rw [has]; rfl, later⟩
  | returns =>
    have owner := owner_of_mem_fragmentBlocks pending.tail
    exact .functionEnd ((edits.grows.nodes fragment owner.lt).stop.trans why.symm)
  | empty => exact why.elim

include tiled

theorem tail_lt : (session.graph.node candidate.tail).start < candidate.extent source session.context := by
  obtain ⟨inst, holds, _⟩ := built.exists_back pending looping
  have nonempty := Nat.lt_of_le_of_lt holds.start holds.stop
  rcases built.extent_cases looping.traced.code with same | ⟨idiom, _, same, follows, drops⟩
  · rwa [same]
  · obtain ⟨drop, held, _⟩ := drops.drops
    have first := tiled.follows _ _ follows.jump
    have second := tiled.follows _ _ follows.drop
    have last := follows.beyond
    have inside := held.start
    have before := held.stop
    omega

theorem stop_le (isBlock : (session.graph.node block).kind.isBlock = true)
    (before : (session.graph.node block).start < candidate.extent source session.context) :
    (session.graph.node block).stop ≤ candidate.extent source session.context := by
  rcases built.extent_cases looping.traced.code with same | ⟨idiom, _, same, follows, _⟩
  · rw [same] at before ⊢
    exact tiled.apart block _ isBlock (looping.nested fragment _ pending.tail).1 before
  · rw [same] at before ⊢
    obtain ⟨across, isAcross, goes⟩ := follows.across
    have held : across ∈ (session.graph.node idiom.jump).instructions := by simp [isAcross]
    have member := (looping.traced.code idiom.jump across held).member
    exact tiled.lands block isBlock across member _ (Option.ite_none_right_eq_some.mp goes).2 before

/-- A sentinel of a loop is directly in it, or directly in an inner loop, where its block was. -/
theorem meant {middle : FlowGraph} {jump : Instruction}
    (toMiddle : Clips (candidate.needs source session fragment) session.graph middle)
    (marked : Marked (candidate.needs source session fragment) middle (first.graph.node id) block jump which)
    (level : (first.graph.node id).parent = (middle.node block).parent) (bound : id < first.graph.size)
    (proper : which ≠ .empty)
    (within : block ∈ blocksWithin session.graph fragment candidate.start (candidate.extent source session.context))
    (jumps : jump.targetOf? .b = some target)
    (stays : session.claims.isSwitchExit (session.graph.node block).start target = false) :
    Meant next.graph block id target loop := by
  obtain ⟨among, within⟩ := List.mem_filter.mp within
  have isBlock := (looping.nested fragment block among).1
  have inner := lt_size_of_isBlock isBlock
  have becomes := built.edits.grows.nodes block inner
  rw [toMiddle.parent_eq inner] at level
  have notEmpty : (first.graph.node id).kind ≠ .sentinel .empty := by
    rw [marked.kind]
    exact fun empty => proper (Kind.sentinel.inj empty)
  refine ⟨built.isLoop, ?_, ?_⟩
  · rw [Surrounds, Node.startsWithin, becomes.start, built.start, built.stop]
    exact within
  have shorter := toMiddle.maintains.grows.nodes block inner
  have holds := looping.traced.code block jump (shorter.instructions.subset jump (List.mem_of_getLast? marked.last))
  simp only [Node.startsWithin, Bool.and_eq_true, decide_eq_true_eq] at within
  rcases looping.settled fragment block among with onLevel | ⟨other, inside, isLoop, keeps⟩
  · -- The sentinel is before the end of its block, so the loop takes it in.
    have before := built.stop_le pending tiled looping isBlock within.2
    refine ⟨loop, .here ?_ built.isLoop, .inl rfl⟩
    rw [built.parents id bound notEmpty, if_pos]
    simp only [level, onLevel, Node.startsWithin, marked.start, Bool.and_eq_true, decide_eq_true_eq, true_and]
    exact ⟨Nat.le_trans within.1 holds.start, Nat.lt_of_lt_of_le holds.stop before⟩
  · have otherBound : other < session.graph.size := by
      obtain ⟨_, isKind⟩ := isLoop
      exact Owner.lt (.of_kind isKind rfl)
    have outer := built.edits.grows.nodes other otherBound
    have stillLoop := (built.shaping.grows.nodes other otherBound).kind.loop_iff.mpr isLoop
    refine ⟨other, ?_, .inr ?_⟩
    · exact built.placing.firstLoop (fun owns => owns) (fun cuts => cuts) (pending.not_reshapes looping.nested)
        bound notEmpty (.here (level.trans inside) stillLoop)
    · rw [surrounds_iff built.edits.grows otherBound inner, outer.start, outer.stop]
      refine Classical.or_iff_not_imp_left.mpr fun surrounds => ?_
      have goes : (middle.node block).jumpTarget? = some target := Option.bind_eq_some_iff.mpr ⟨jump, marked.last, jumps⟩
      refine (keeps (Classical.not_not.mp surrounds) target (shorter.jumpTarget? (looping.init block) goes)).resolve_right ?_
      simp [stays]

theorem settled : next.Settled := by
  have edits := built.edits
  have kept := edits.claims_eq fun claims => claims
  intro function block among
  rw [edits.fragmentBlocks_eq fun owns => owns] at among
  have isBlock := (looping.nested function block among).1
  have inner := lt_size_of_isBlock isBlock
  have becomes := edits.grows.nodes block inner
  have parent := built.parents block (built.shaping.lt inner)
    (built.shaping.proper inner (Kind.ne_empty_of_isBlock isBlock))
  rw [built.clips.parent_eq inner, Node.startsWithin, (built.shaping.grows.nodes block inner).start] at parent
  rcases looping.settled function block among with onLevel | ⟨other, inside, isLoop, keeps⟩
  · rw [onLevel] at parent
    split at parent
    · next taken =>
      obtain rfl := Option.some.inj taken.1
      refine .inr ⟨loop, parent, built.isLoop, fun _ target jumps => ?_⟩
      have shaped := built.shaping.grows.nodes block inner
      have left := (built.placing.grows.nodes block (built.shaping.lt inner)).jumpTarget?
        ((looping.init block).dropLast shaped.instructions) jumps
      obtain ⟨jump, last, _⟩ := Option.bind_eq_some_iff.mp (becomes.jumpTarget? (looping.init block) jumps)
      have holds := looping.traced.code block jump (List.mem_of_getLast? last)
      have nonempty := Nat.lt_of_le_of_lt holds.start holds.stop
      have tail := built.tail_lt pending tiled looping
      have within := taken.2
      simp only [Bool.and_eq_true, decide_eq_true_eq] at within
      rw [built.start, built.stop, becomes.start, kept]
      rcases built.converted block (List.mem_filter.mpr ⟨among, taken.2⟩) (looping.init block) target left with
        exits | range | ⟨rfl | rfl, beyond⟩
      · exact .inr exits
      · exact .inl range
      · omega
      · exact .inl (by omega)
    · exact .inl parent
  · have apart : other ≠ fragment := by
      rintro rfl
      obtain ⟨_, isFragment⟩ := isFragment_of_mem_fragmentBlocks pending.tail
      obtain ⟨_, isKind⟩ := isLoop
      cases isFragment.symm.trans isKind
    rw [inside, if_neg fun taken => apart (Option.some.inj taken.1)] at parent
    have otherBound : other < session.graph.size := by
      obtain ⟨_, isKind⟩ := isLoop
      exact Owner.lt (.of_kind isKind rfl)
    have outer := edits.grows.nodes other otherBound
    refine .inr ⟨other, parent, outer.kind.loop_iff.mpr isLoop, fun surrounds target jumps => ?_⟩
    rw [outer.start, outer.stop, becomes.start, kept]
    exact keeps ((surrounds_iff edits.grows otherBound inner).mp surrounds) target
      (becomes.jumpTarget? (looping.init block) jumps)

include sound

theorem traced : Traced source next := by
  have edits := built.edits
  have kept := edits.claims_eq fun claims => claims
  refine looping.traced.later sound edits (fun cuts => cuts) (fun owns => owns)
    (pending.not_reshapes looping.nested) (fun _ member => kept ▸ member) fun id which outside isSentinel proper => ?_
  -- All sentinels are made before the loop is put in the graph.
  rcases built.placing.sentinel_or isSentinel proper with shaped | ⟨_, _, _, _, marked⟩
  · have bound := lt_of_sentinel shaped proper
    obtain ⟨middle, block, jump, toMiddle, marked, level⟩ := built.clips.fresh outside shaped proper
    obtain ⟨within, target, jumps, why, stays⟩ := marked.marks
    have among := (List.mem_filter.mp within).1
    have shorter := toMiddle.maintains.grows.nodes block (lt_of_mem_fragmentBlocks sound.graph among)
    have held := looping.traced.code block jump (shorter.instructions.subset jump (List.mem_of_getLast? marked.last))
    have made : MadeFrom source session.graph (first.graph.node id) fragment block jump target :=
      ⟨among, held, jumps, marked.start, marked.stop⟩
    have becomes := built.placing.grows.nodes id bound
    have meant := built.meant pending tiled looping toMiddle marked level bound proper within jumps stays
    exact ⟨fragment, block, jump, target, made.later sound edits (fun owns => owns) becomes.start becomes.stop,
      .inl (built.reason pending sound looping meant why)⟩
  · exact marked.marks.elim

theorem looping_next : next.Looping source := by
  have edits := built.edits
  refine ⟨built.traced pending sound tiled looping,
    looping.nested.later edits (fun owns => owns) (fun cuts => cuts) sound, fun id => ?_,
    built.settled pending tiled looping⟩
  by_cases inside : id < session.graph.size
  · exact (looping.init id).dropLast (edits.grows.nodes id inside).instructions
  · rw [edits.instructions_eq_nil (fun cuts => cuts) (Nat.le_of_not_lt inside)]
    exact List.forall_mem_nil _

end Candidate.Built

theorem revises_buildFragmentLoops (free : rights.encloses ∧ rights.reshapes) (settled : ¬rights.owns)
    (whole : ¬rights.cuts) (marks : ∀ block jump which, rights.marks block jump which) :
    Revises rights (buildFragmentLoops source fragment) session fun _ next => next.claims = session.claims ∧
      (session.Tiled source → session.Looping source → next.Looping source) := by
  refine .of_sound fun sound => .getGraph_bind ?_
  have found := yields_findCandidates session.graph fragment
  split
  · next failure isFailure =>
    rw [isFailure] at found
    exact .throw found
  · next candidates isFound =>
    rw [isFound] at found
    have ordered := yields_orderCandidates candidates
    split
    · next failure isFailure =>
      rw [isFailure] at ordered
      exact .throw ordered
    · next candidates isOrdered =>
      rw [isOrdered] at ordered
      refine .bind (.forKeep (fun next => next.claims = session.claims ∧
        (session.Tiled source → session.Looping source → next.Looping source)) ⟨rfl, fun _ => id⟩ ?_)
        fun _ _ _ _ kept => .pure kept
      rintro candidate member next edits ⟨same, looping⟩
      obtain ⟨head, tail, stop, back⟩ := found candidate (ordered candidate member)
      have headBound := lt_of_mem_fragmentBlocks sound.graph head
      have tailBound := lt_of_mem_fragmentBlocks sound.graph tail
      have becomes := edits.grows.nodes _ tailBound
      have within : (candidate.needs source next fragment).Within rights :=
        ⟨fun block jump which _ => marks block jump which, fun _ => free.1, False.elim, False.elim, False.elim,
          False.elim, fun _ => free.2⟩
      have owner := owner_of_mem_fragmentBlocks head
      have isFragment := (edits.grows.nodes fragment owner.lt).kind.fragment_iff.mpr
        (isFragment_of_mem_fragmentBlocks head)
      refine .imp (.mono within (revises_buildLoop trivial id id isFragment
        (edits.lt headBound) (edits.lt tailBound) (becomes.stop.trans stop) (Classical.em _).symm
        fun block among jump target which jumps why stays => ⟨among, target, jumps, why, stays⟩)) ?_
      rintro _ final ⟨toFinal, middle, loop, built⟩
      refine ⟨(toFinal.claims_eq id).trans same, fun tiled first => ?_⟩
      have sameBlocks := edits.fragmentBlocks_eq settled fragment
      refine built.looping_next ⟨sameBlocks ▸ head, sameBlocks ▸ tail, fun plain => ?_⟩ (edits.sound sound)
        (tiled.later edits whole sound) (looping tiled first)
      obtain ⟨inst, last, goes⟩ := Option.bind_eq_some_iff.mp (back plain)
      exact ⟨inst, (first.traced.code _ inst (List.mem_of_getLast? last)).later becomes, goes⟩

theorem revises_buildLoops (free : rights.encloses ∧ rights.reshapes) (settled : ¬rights.owns)
    (whole : ¬rights.cuts) (marks : ∀ block jump which, rights.marks block jump which) :
    Revises rights (buildLoops source) session fun _ next => next.claims = session.claims ∧
      (session.Tiled source → session.Looping source → next.Looping source) := by
  refine .of_sound fun sound => .getContext_bind ?_
  refine .foldlM (fun _ next => next.claims = session.claims ∧
    (session.Tiled source → session.Looping source → next.Looping source)) ⟨rfl, fun _ => id⟩ ?_
  rintro fragment member changed next edits ⟨same, looping⟩
  refine .bind (revises_buildFragmentLoops free settled whole marks) ?_
  exact fun _ final _ _ kept => .pure ⟨kept.1.trans same, fun tiled first =>
    kept.2 (tiled.later edits whole sound) (looping tiled first)⟩

end Structuring.Recovery
