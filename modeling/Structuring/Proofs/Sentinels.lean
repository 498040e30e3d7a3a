import Structuring.Proofs.Slots.Layout

/-! What breaks, continues and returns stand for.

A sentinel is in the place of a jump, and the address that the jump went to is the end of a structure
around its block, the start or the tail of a loop around it, or not in its function. The structure is
one whose range holds the block. On the way up from the sentinel it is the first loop, or a switch
around the sentinel, unless structures overlap.
-/

namespace Structuring

open Bytecode Recovery FlowGraph

variable {source : Source} {session inserted final : Session} {outcome : RunOutcome}
  {fragment block id : NodeId} {which : Sentinel} {jump : Instruction} {target : Nat}

/-- A switch that a jump from a block leaves, and that covers the sentinel. -/
structure LeavesSwitch (graph : FlowGraph) (block id : NodeId) (target : Nat) (switch : NodeId) : Prop where
  isSwitch : ∃ parts, (graph.node switch).kind = .switch parts
  inside : Surrounds graph switch block
  stops : (graph.node switch).stop = target
  covers : graph.Covers switch id

/-- The switches that are located are in the graph at the end, and cover what was there before them. -/
theorem LeavesSwitch.of_located (leaves : LeavesLocated session.graph session.claims block target)
    (settles : ∀ location ∈ session.claims.switches, location.Settles session.graph inserted.graph)
    (overlays : Overlays session.graph inserted.graph) (keeps : KeepsNesting inserted.graph final.graph)
    (sound : inserted.Sound) (inner : block < session.graph.size) (bound : id < session.graph.size) :
    ∃ switch, LeavesSwitch final.graph block id target switch := by
  obtain ⟨location, member, contains, stops⟩ := leaves
  obtain ⟨switch, parts, fresh, isSwitch, range⟩ := (settles location member).node
  have outer : switch < inserted.graph.size := Owner.lt (.of_kind isSwitch rfl)
  have becomes := keeps.grows.nodes switch outer
  obtain ⟨start, stop⟩ := AddressRange.mk.inj range
  refine ⟨switch, becomes.kind.switch_iff.mpr ⟨parts, isSwitch⟩, ?_, ?_, ?_⟩
  · rw [surrounds_iff keeps.grows outer (overlays.grows.lt inner), Surrounds, start, stop, Node.startsWithin,
      (overlays.grows.nodes block inner).start]
    exact contains
  · exact (becomes.stop.trans stop).trans stops
  · exact keeps.covers sound.graph (overlays.covers switch parts fresh isSwitch id bound) outer
      (overlays.grows.lt bound)

/-- What is edited once branches are built: switches and initializers enclose nodes. -/
def enclosingRights : Rights :=
  { Rights.none with encloses := True, claims := True }

theorem Stages.means {blocks laid located looped branched inserted : Session}
    (stages : Stages source blocks laid located looped branched inserted final)
    (ordered : InOrder source.code.instructions)
    (isSentinel : (final.graph.node id).kind = .sentinel which) (proper : which ≠ .empty) :
    ∃ fragment block jump target, MadeFrom source final.graph (final.graph.node id) fragment block jump target ∧
      (Reason source final.context fragment block id target which ∨
        which = .breaks ∧ ∃ switch, LeavesSwitch final.graph block id target switch) := by
  obtain ⟨_, _, tidied, insertedTidied⟩ := stages.tidied ordered
  obtain ⟨sound, toInserted, settles⟩ := stages.inserts.revises tidied.sound
    (fun context _ => ∀ location ∈ branched.claims.switches, location.Settles branched.graph context.graph)
    (.imp (revises_insertSwitches trivial trivial :
      Revises enclosingRights _ _ _) fun _ _ done => done.2)
  obtain ⟨_, toFinal, _⟩ := stages.initializes.revises sound (fun _ _ => True)
    (.any (revises_buildStaticInits trivial : Revises enclosingRights _ _ _))
  have overlays := stages.inserts.returns (fun context _ => Overlays branched.graph context.graph)
    ((tidies_insertSwitches tidied).imp fun _ _ done => done.2)
  have keeps := stages.initializes.returns (fun context _ => KeepsNesting inserted.graph context.graph)
    ((tidies_buildStaticInits insertedTidied).imp fun _ _ done => done.2)
  have edits := toInserted.trans toFinal
  -- No pass after the branches puts a sentinel in the place of a jump.
  have before : (branched.graph.node id).kind = .sentinel which := by
    rcases edits.sentinel_or isSentinel proper with before | ⟨_, _, _, _, marked⟩
    · exact before
    · exact marked.marks.elim
  have bound := lt_of_sentinel before proper
  have becomes := edits.grows.nodes id bound
  obtain ⟨fragment, block, jump, target, made, reason⟩ := (stages.traced ordered).sentinels id which before proper
  refine ⟨fragment, block, jump, target, made.later tidied.sound edits (fun owns => owns) becomes.start becomes.stop, ?_⟩
  rcases reason with reason | ⟨isBreak, leaves⟩
  · exact .inl (reason.later tidied.sound edits (fun cuts => cuts) (fun owns => owns) (fun reshapes => reshapes)
      made.member bound (by simpa [before] using proper))
  · exact .inr ⟨isBreak, LeavesSwitch.of_located leaves settles overlays keeps sound
      (lt_of_mem_fragmentBlocks tidied.sound.graph made.member) bound⟩

/-- The first structure of certain kinds on the way up from a node. -/
def nearest? (graph : FlowGraph) (wanted : Kind → Bool) : Nat → NodeId → Option NodeId
  | 0, _ => none
  | fuel + 1, id =>
    (graph.node id).parent.bind fun outer =>
      if wanted (graph.node outer).kind then some outer else nearest? graph wanted fuel outer

def FlowGraph.Kind.isLoop : Kind → Bool
  | .loop _ => true
  | _ => false

def FlowGraph.Kind.isLeft : Kind → Bool
  | .loop _ | .switch _ => true
  | _ => false

/-- Whether the structure nearest to a sentinel, or the range of its function, tells of an address
that a jump there means the same. -/
def nearestTells (graph : FlowGraph) (fragment id : NodeId) (target : Nat) : Sentinel → Bool
  | .breaks =>
    (nearest? graph Kind.isLeft graph.size id).any fun outer =>
      (graph.node outer).stop == target ||
        match (graph.node outer).kind with
        | .loop { shape := .withLoop (some breakBlock), .. } => (graph.node breakBlock).start == target
        | _ => false
  | .continues =>
    (nearest? graph Kind.isLoop graph.size id).any fun outer =>
      (graph.node outer).start == target ||
        match (graph.node outer).kind with
        | .loop parts => (graph.node parts.tail).start == target
        | _ => false
  | .returns =>
    let node := graph.node fragment
    node.stop == target || !(node.start ≤ target && target < node.stop)
  | .empty => true

/-- Some sentinel stands for a jump to an address that the nearest structure does not tell of. -/
def StandsElsewhere (listing : String) (which : Sentinel) : Prop :=
  ∃ code outcome final id fragment block jump target,
    Assembly.assemble "entry" listing = .ok code ∧
    structureEntry ⟨code, .all⟩ = .ok outcome final ∧
    (final.graph.node id).kind = .sentinel which ∧
    MadeFrom ⟨code, .all⟩ final.graph (final.graph.node id) fragment block jump target ∧
    nearestTells final.graph fragment id target which = false

theorem StandsElsewhere.of_evaluated (id fragment block : NodeId) (jump : Instruction) (target : Nat)
    {listing : String} {which : Sentinel}
    (evaluated : evaluates "entry" listing (structureEntry ⟨·, .all⟩) (fun code _ final =>
      let graph := final.graph
      (graph.node id).kind = .sentinel which ∧ block ∈ fragmentBlocks graph fragment ∧
        jump ∈ code.instructions ∧ (graph.node block).start ≤ jump.address ∧
        jump.address < (graph.node block).stop ∧ jump.targetOf? .b = some target ∧
        (graph.node id).start = jump.address ∧ (graph.node id).stop = jump.nextAddress ∧
        nearestTells graph fragment id target which = false) = true) :
    StandsElsewhere listing which := by
  obtain ⟨code, outcome, final, assembled, done, isSentinel, member, among, after, before, jumps, start, stop,
    differs⟩ := exists_of_evaluates _ _ _ _ evaluated
  exact ⟨code, outcome, final, id, fragment, block, jump, target, assembled, done, isSentinel,
    ⟨member, ⟨among, after, before⟩, jumps, start, stop⟩, differs⟩

/-- Some break is in no loop or switch at all. -/
def BreaksNothing (listing : String) : Prop :=
  ∃ code outcome final id, Assembly.assemble "entry" listing = .ok code ∧
    structureEntry ⟨code, .all⟩ = .ok outcome final ∧
    (final.graph.node id).kind = .sentinel .breaks ∧ nearest? final.graph Kind.isLeft final.graph.size id = none

theorem BreaksNothing.of_evaluated (id : NodeId) {listing : String}
    (evaluated : evaluates "entry" listing (structureEntry ⟨·, .all⟩) (fun _ _ final =>
      (final.graph.node id).kind = .sentinel .breaks ∧
        nearest? final.graph Kind.isLeft final.graph.size id = none) = true) : BreaksNothing listing := by
  obtain ⟨code, outcome, final, assembled, done, found⟩ := exists_of_evaluates _ _ _ _ evaluated
  exact ⟨code, outcome, final, id, assembled, done, found⟩

end Structuring
