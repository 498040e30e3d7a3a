import Structuring.Proofs.Isolation
import Structuring.Proofs.Slots.Switch
import Structuring.Proofs.Stages

/-! Slots of fragments.

When fragments have been found, there are no other structures. The entry of a fragment is the first of
its blocks, or what has come in the place of that.
-/

namespace Structuring

open Bytecode Recovery FlowGraph

variable {source : Source} {session : Session} {every : Prop} {options : RunOptions}

namespace FlowGraph

variable {graph next : FlowGraph}

def OnlyEntries (graph : FlowGraph) : Prop :=
  ∀ id slot ref, (slot, ref) ∈ (graph.node id).kind.slots → slot = .entry ∧ ref ∈ fragmentBlocks graph id

namespace OnlyEntries

theorem congr (only : graph.OnlyEntries) (slots : ∀ id, (next.node id).kind.slots = (graph.node id).kind.slots)
    (blocks : ∀ id, fragmentBlocks next id = fragmentBlocks graph id) : next.OnlyEntries := by
  intro id slot ref member
  rw [slots] at member
  rw [blocks]
  exact only id slot ref member

theorem of_sameCores (only : graph.OnlyEntries) (same : SameCores graph next) : next.OnlyEntries :=
  only.congr (fun id => by rw [same.kind]) same.fragmentBlocks

theorem dropBranch (only : graph.OnlyEntries) (id : NodeId) (opcode : Opcode) :
    (graph.dropBranch id opcode).OnlyEntries := by
  have popped : (graph.popIf id opcode).OnlyEntries := by
    unfold FlowGraph.popIf
    split
    · exact only.congr (slots_mapInstructions graph id _) (fragmentBlocks_mapInstructions _)
    · exact only
  exact popped.of_sameCores (sameCores_clearSuccessors _ id)

theorem addFragment (only : graph.OnlyEntries) (name : String) (start stop : Nat) (parent : Option NodeId) :
    (graph.addNode (.fragment ⟨name, none, []⟩) start stop parent).OnlyEntries := by
  apply only.congr
  · intro id
    rw [node_addNode]
    split
    · next here =>
      rw [here, node_of_size_le (Nat.le_refl _)]
      rfl
    · rfl
  · exact fun id => fragmentBlocks_addNode rfl start stop parent id

theorem ownBlock (only : graph.OnlyEntries) (owner block : NodeId) :
    (ownBlock graph owner block).OnlyEntries := by
  have placed : (graph.setParent block (some owner)).OnlyEntries := by
    apply only.congr
    · exact field_modify (·.kind.slots) ({ · with parent := some owner }) fun _ => rfl
    · exact fragmentBlocks_modify ({ · with parent := some owner }) fun _ => rfl
  unfold Recovery.ownBlock
  generalize graph.setParent block (some owner) = middle at placed
  intro id slot ref member
  rw [FlowGraph.fragmentBlocks_eq]
  rw [mapKind, node_modify] at member ⊢
  split
  · next here =>
    rw [if_pos here] at member
    have old := placed id slot ref
    rw [FlowGraph.fragmentBlocks_eq] at old
    dsimp only at member ⊢
    cases isKind : (middle.node id).kind with
    | fragment parts =>
      rw [isKind] at member old
      simp only [Kind.slots, Kind.members, List.mem_map, Option.mem_toList, List.mem_append,
        List.mem_singleton, Prod.mk.injEq] at member old ⊢
      obtain ⟨_, isEntry, rfl, rfl⟩ := member
      refine ⟨rfl, ?_⟩
      rcases Option.or_eq_some_iff.mp isEntry with older | ⟨_, new⟩
      · exact .inl (old ⟨_, older, rfl, rfl⟩).2
      · exact .inr (Option.some.inj new).symm
    | _ =>
      rw [isKind] at member old
      exact old member
  · next apart =>
    rw [if_neg apart] at member
    have old := placed id slot ref member
    rwa [FlowGraph.fragmentBlocks_eq] at old

end OnlyEntries

end FlowGraph

namespace Recovery

structure Admits (graph next : FlowGraph) : Prop where
  only : graph.OnlyEntries → next.OnlyEntries
  thins : Thins graph next

theorem Admits.trans {graph next final : FlowGraph} (first : Admits graph next) (second : Admits next final) :
    Admits graph final := ⟨second.only ∘ first.only, first.thins.trans second.thins⟩

theorem admits_openedGraph {graph : FlowGraph} {current previous : NodeId} {child : ChildEntry} {stop : Nat}
    (isBlock : (graph.node previous).kind.isBlock = true) :
    Admits graph (openedGraph graph current previous child stop) := by
  have cut : Admits graph (graph.dropBranch previous .b) :=
    ⟨(·.dropBranch _ _), fun _ slim => slim.dropBranch _ _⟩
  have size : (graph.dropBranch previous .b).size = graph.size := size_dropBranch .b
  have cutIdle : (graph.dropBranch previous .b).Idle previous :=
    .of_isBlock ((isBlock_dropBranch _ _).trans isBlock) (by rw [successors_dropBranch, if_pos rfl])
  have bound := lt_size_of_isBlock isBlock
  unfold openedGraph
  generalize graph.dropBranch previous .b = cutGraph at cut cutIdle size
  rw [← size] at bound ⊢
  dsimp only
  generalize isMade : cutGraph.addNode (.fragment ⟨child.name, none, []⟩) child.start stop (some current) = made
  have toMade : Admits graph made :=
    isMade ▸ cut.trans ⟨(·.addFragment _ _ _ _), fun _ slim => slim.addNode _ _ _ _⟩
  have madeIdle : made.Idle cutGraph.size := isMade ▸ .addNode _ (fun _ => by exact Nat.one_pos) _ _ _
  have linked := toMade.thins.addEdge (isMade ▸ cutIdle.later bound _ _ _ _) cutGraph.size
  split
  · exact ⟨fun only => ((toMade.only only).of_sameCores (sameCores_addEdge _ _)).of_sameCores
      (sameCores_addEdge _ _), linked.addEdge (madeIdle.addEdge_of_ne (Nat.ne_of_lt bound) _) _⟩
  · exact ⟨fun only => (toMade.only only).of_sameCores (sameCores_addEdge _ _), linked⟩

theorem eases_ownBlock (graph : FlowGraph) (owner block : NodeId) : Eases graph (ownBlock graph owner block) := by
  refine (Eases.setParent graph block _).trans (.mapKind _ _ fun limit => ?_)
  cases ((graph.setParent block (some owner)).node owner).kind <;> exact Nat.le_refl _

theorem admits_assignBlocks {root : NodeId} {previous : Option NodeId} {stack : List NodeId}
    (blocks : List NodeId) :
    Returns (assignBlocks source root previous stack blocks) session fun _ next =>
      Admits session.graph next.graph := by
  induction blocks generalizing session previous stack with
  | nil => exact .pure ⟨id, .refl _⟩
  | cons block rest ih =>
    refine .getGraph_bind (.bind returns_fragmentsAt fun _ opened reaching => ?_)
    have toOpened : Admits session.graph opened.graph := by
      cases reaching with
      | stays same _ => exact same ▸ ⟨id, .refl _⟩
      | opens before child stop _ _ _ skips _ _ isOpened =>
        rw [isOpened]
        exact admits_openedGraph (isBlock_of_target skips)
    refine .modifyGraph_bind fun owned _ isOwned => ih.imp fun _ _ toNext => Admits.trans ?_ toNext
    rw [isOwned]
    exact ⟨fun only => (toOpened.only only).ownBlock _ _, toOpened.thins.eases (eases_ownBlock _ _ _)⟩

theorem clips_confine {root fragment : NodeId} :
    Returns (confine root fragment) session fun _ next => Clips .full session.graph next.graph := by
  refine .getGraph_bind (.forM _ .refl fun block _ next before => ?_)
  refine .getGraph_bind ?_
  extract_lets node leaving leavesTo cut
  have cuts : Returns (cut ()) next fun _ final => Clips .full session.graph final.graph := by
    dsimp only [cut]
    split
    · next ends =>
      refine .imp .modifyGraph fun _ final isFinal => before.trans ?_
      rw [isFinal]
      refine .single (.mark block _ fun jump last => ⟨?_, fun _ => trivial⟩)
      obtain ⟨target, jumps⟩ := Option.isSome_iff_exists.mp ends
      rw [Node.jumpTarget?, Node.targetOf?, last] at jumps
      exact Instruction.opcode_eq jumps
    · split
      · exact .throw trivial
      · refine .imp .modifyGraph fun _ final isFinal => before.trans ?_
        rw [isFinal]
        exact Clips.foldl_removeEdge _ _ _
  clear_value cut
  split
  · exact .pure before
  · split
    · exact .throw_bind trivial
    · exact cuts

/-- When fragments have been found, their entries are blocks of theirs, up to what has been clipped
since. -/
theorem entries_buildFragments (rootless : session.root = none) (only : session.graph.OnlyEntries) :
    Returns (buildFragments source) session fun _ next => Thins session.graph next.graph ∧
      ∃ graph : FlowGraph, graph.OnlyEntries ∧ Clips .full graph next.graph := by
  refine .buildFragments rootless fun listed context => ?_
  have toListed : Admits session.graph listed.graph := by
    rw [context]
    exact ⟨(·.addFragment _ _ _ _), fun _ slim => slim.addNode _ _ _ _⟩
  refine .imp (admits_assignBlocks _) fun stack assigned toAssigned => ?_
  have admits := toListed.trans toAssigned
  refine .imp (.forM (fun next => Clips .full assigned.graph next.graph) .refl fun _ _ next before => ?_)
    fun _ final clipped => ⟨admits.thins.trans clipped.thins, _, admits.only only, clipped⟩
  exact clips_confine.imp fun _ _ after => before.trans after

end Recovery

/-- Before there are other structures than fragments, a graph is tidy if its blocks keep to their
levels. -/
theorem FlowGraph.OnlyEntries.tidy {graph laid : FlowGraph} (only : graph.OnlyEntries)
    (clips : Clips .full graph laid) (rooted : laid.Rooted)
    (level : ∀ fragment, ∀ block ∈ fragmentBlocks laid fragment, (laid.node block).parent = some fragment)
    (stays : laid.Stays every id) : laid.Tidy every := by
  have refills := (clips.tends id).refills
  have entry {id : NodeId} {slot : Slot} {ref : NodeId} (member : (slot, ref) ∈ (laid.node id).kind.slots) :
      (slot = .entry ∧ ref ∈ fragmentBlocks laid id) ∨ (laid.node ref).parent = some id := by
    rcases refills.slots id slot ref member with old | inside
    · rw [clips.fragmentBlocks_eq]
      exact .inl (only id slot ref old)
    · exact .inr inside
  have enters (outer inner : NodeId) (enters : laid.Enters outer inner) : laid.Inside inner outer := by
    rcases enters.2 with inside | tail | condition
    · exact inside
    · rcases entry tail with ⟨other, _⟩ | inside
      · cases other
      · exact inside
    · rcases entry condition with ⟨other, _⟩ | inside
      · cases other
      · exact inside
  refine ⟨fun id cycle => ?_, stays, fun id slot ref member => ?_⟩
  · exact rooted.not_inside_itself id (Relation.TransGen.mono (fun one other => enters other one) id id
      cycle.swap)
  · rcases entry member with ⟨_, among⟩ | inside
    · exact .direct (level id ref among)
    · exact .direct inside

theorem Recovery.Context.Blocked.onlyEntries {slices : List (AddressRange × List Instruction)}
    {context : Context} (blocked : context.Blocked slices) : context.graph.OnlyEntries := by
  intro id slot ref member
  have kind : (context.graph.node id).kind.slots = [] := by
    by_cases inside : id < slices.length
    · have isKind := congrArg Node.kind (blocked.core id inside)
      rw [show (context.graph.node id).kind = _ from isKind]
      rfl
    · rw [node_of_size_le (blocked.size ▸ Nat.le_of_not_lt inside)]
      rfl
  rw [kind] at member
  cases member

theorem returns_tidied (ordered : InOrder source.code.instructions) (verify : Bool) :
    Returns (applyPass source verify Pass.blocks) {} fun _ blocks =>
      Returns (applyPass source verify Pass.fragments) blocks fun _ laid => laid.Tidied False := by
  apply Reaches.imp (.and (returns_blocks ordered verify)
    (.and (returns_layout ordered verify) (returns_crossings ordered verify)))
  rintro _ blocks ⟨⟨sound, toBlocks, _, _, blocked⟩, lays, crosses⟩
  have founds : Revises fragmentRights (applyPass source verify Pass.fragments) blocks _ :=
    .applyPass (fun _ _ => True) (.imp revises_buildFragments fun _ _ _ => trivial) verify
  have rootless : blocks.root = none := by rw [blocked.whole]
  have enters : Returns (applyPass source verify Pass.fragments) blocks _ := .applyPass
    (fun context _ => ∃ graph : FlowGraph, graph.OnlyEntries ∧ Clips .full graph context.graph)
    ((entries_buildFragments rootless blocked.onlyEntries).imp fun _ _ done => done.2)
    (fun never => absurd trivial never) verify
  apply Reaches.imp (.and (.and (.of_revises founds sound) enters) (.and lays crosses))
  rintro _ laid ⟨⟨⟨sound, toLaid, _⟩, graph, only, clips⟩, opened, crosses⟩
  have rooted := toLaid.rooted (toBlocks.sound Session.sound_empty)
    (toBlocks.rooted Session.sound_empty rooted_empty)
  refine ⟨sound, opened.nested, rooted, only.tidy clips rooted opened.level ?_, ?_⟩
  · rintro block (never | isBlock) ⟨target, member, apart⟩
    · exact never
    obtain ⟨isFragment, _⟩ := (crosses block).mp ⟨_, List.mem_map_of_mem member, apart⟩
    rw [(sound.fragments block isFragment).isBlock_eq_false] at isBlock
    exact absurd isBlock Bool.false_ne_true
  · rw [opened.unclaimed]
    exact List.forall_mem_nil _

theorem Recovery.SwitchLocation.Located.isBlock {graph : FlowGraph} {location : SwitchLocation}
    (located : location.Located graph) {block : NodeId} (member : block ∈ location.branches) :
    (graph.node block).kind.isBlock = true := by
  have nonempty {node : Node} (filled : node.instructions ≠ []) : node.kind.isBlock = true := by
    by_contra other
    exact filled (Node.instructions_of_not_isBlock (Bool.eq_false_iff.mpr other))
  apply nonempty
  intro empty
  rcases List.mem_append.mp member with compares | jumps
  · obtain ⟨target, isTarget, -⟩ := located.found.exists_target compares
    simp [caseTarget?, empty] at isTarget
  · have isJump : isLoneJump (graph.node location.jumpBlock) = true := located.found.jumps
    rw [← List.mem_singleton.mp jumps] at isJump
    simp [isLoneJump, empty] at isJump

theorem tidies_locateSwitches (tidied : session.Tidied every) :
    Returns (locateSwitches source) session fun _ next => next.Tidied every := by
  have locates : Revises Rights.full.settled (locateSwitches source) session _ := revises_locateSwitches trivial
  apply Reaches.imp (.of_revises locates tidied.sound)
  rintro _ next ⟨sound, edits, same, extended⟩
  refine ⟨sound, tidied.nested.later edits id id tidied.sound, ?_, ?_, ?_⟩
  · exact same ▸ tidied.rooted
  · exact same ▸ tidied.tidy
  · intro location member block among
    rw [same]
    rcases extended.switches location member with old | located
    · exact tidied.claimed location old block among
    · exact located.isBlock among

theorem tidies_laterPass {pass : Pass} (later : pass ∈ Pass.standard.drop 2) (tidied : session.Tidied every) :
    Returns (pass.apply source) session fun _ next => next.Tidied every := by
  simp only [Pass.standard, List.drop_succ_cons, List.drop_zero, List.mem_cons, List.not_mem_nil,
    or_false] at later
  rcases later with rfl | rfl | rfl | rfl | rfl
  · exact tidies_locateSwitches tidied
  · exact (tidies_buildLoops tidied).imp fun _ _ tidies => tidies.tidied
  · exact (tidies_buildConditionals tidied).imp fun _ _ tidies => tidies.tidied
  · exact (tidies_insertSwitches tidied).imp fun _ _ done => done.1
  · exact (tidies_buildStaticInits tidied).imp fun _ _ done => done.1.tidied

theorem Recovery.Session.Tidied.told {next : Session} (tidied : session.Tidied every)
    (context : next.context = session.context) (claims : next.claims = session.claims) : next.Tidied every := by
  obtain ⟨⟨graph, blocks, root, fragments, structures, claimed⟩, nested, rooted, tidy, branches⟩ := tidied
  obtain ⟨context, claims, log⟩ := next
  subst context claims
  exact ⟨⟨graph, blocks, root, fragments, structures, claimed⟩, nested, rooted, tidy, branches⟩

theorem tidies_applyPass {pass : Pass} (later : pass ∈ Pass.standard.drop 2) (verify : Bool)
    (tidied : session.Tidied every) :
    Returns (applyPass source verify pass) session fun _ next => next.Tidied every := by
  refine .bind (tidies_laterPass later tidied) fun changed next tidiedNext => ?_
  refine .tell_bind fun told context claims => ?_
  have tidiedTold := tidiedNext.told context claims
  split
  · refine .getGraph_bind ?_
    split
    · exact .throw_bind trivial
    · exact .pure tidiedTold
  · exact .pure tidiedTold

theorem Ran.tidied {pass : Pass} {before after : Session} {every : Prop} {verify : Bool}
    (ran : Ran source verify pass before after) (later : pass ∈ Pass.standard.drop 2)
    (tidied : before.Tidied every) : after.Tidied every := by
  obtain ⟨_, done⟩ := ran
  exact (tidies_applyPass later verify tidied).run done

theorem Stages.tidied {blocks laid located looped branched inserted final : Session}
    (stages : Stages source blocks laid located looped branched inserted final)
    (ordered : InOrder source.code.instructions) :
    located.Tidied False ∧ looped.Tidied False ∧ branched.Tidied False ∧ inserted.Tidied False := by
  have laidTidied : laid.Tidied False := by
    obtain ⟨_, cuts⟩ := stages.cuts
    obtain ⟨_, founds⟩ := stages.founds
    exact ((returns_tidied ordered true).run cuts).run founds
  have locatedTidied := stages.locates.tidied (by simp [Pass.standard]) laidTidied
  have loopedTidied := stages.loops.tidied (by simp [Pass.standard]) locatedTidied
  have branchedTidied := stages.branches.tidied (by simp [Pass.standard]) loopedTidied
  exact ⟨locatedTidied, loopedTidied, branchedTidied, stages.inserts.tidied (by simp [Pass.standard]) branchedTidied⟩

theorem tidies_runPasses {changed : List String} {passes : List Pass}
    (later : ∀ pass ∈ passes, pass ∈ Pass.standard.drop 2) (tidied : session.Tidied every) :
    Returns (runPasses source options changed passes) session fun _ next => next.Tidied every := by
  induction passes generalizing session changed with
  | nil =>
    refine .getGraph_bind ?_
    split
    · exact .throw trivial
    · exact .pure tidied
  | cons pass rest ih =>
    refine .bind (tidies_applyPass (later pass (.head _)) options.verify tidied) ?_
    intro did next tidiedNext
    dsimp only
    split
    · exact .pure tidiedNext
    · exact ih (fun pass member => later pass (.tail _ member)) tidiedNext

section

variable {outcome : RunOutcome} {final : Session} (ordered : InOrder source.code.instructions)
  (later : options.dumpAfter ≠ some Pass.blocks.name)
  (done : (run source options Pass.standard).run {} = .ok outcome final)

include ordered later done

theorem tidied_of_laid :
    ∃ cut blocks found laid, (applyPass source options.verify Pass.blocks).run {} = .ok cut blocks ∧
      (applyPass source options.verify Pass.fragments).run blocks = .ok found laid ∧ laid.Tidied False ∧
      ∀ every, laid.Tidied every → final.Tidied every := by
  obtain ⟨cut, blocks, found, laid, cuts, founds, ends, goesOn⟩ := layout_of_run later done
  refine ⟨cut, blocks, found, laid, cuts, founds,
    ((returns_tidied ordered options.verify).run cuts).run founds, fun every tidied => ?_⟩
  by_cases here : options.dumpAfter = some Pass.fragments.name
  · exact ends here ▸ tidied
  · obtain ⟨_, goesOn⟩ := goesOn here
    exact (tidies_runPasses (fun _ => id) tidied).run goesOn

/-- A run over assembled code that goes beyond its blocks leaves a tidy session. -/
theorem tidied_of_run : final.Tidied False := by
  obtain ⟨_, _, _, _, _, _, tidied, onward⟩ := tidied_of_laid ordered later done
  exact onward _ tidied

/-- If no edge leaves its level once fragments are found, none does later. -/
theorem tidied_of_closed {stopped : RunOutcome} {laid : Session}
    (lays : (run source { options with dumpAfter := some Pass.fragments.name } Pass.standard).run {} =
      .ok stopped laid)
    (closed : laid.graph.Closed) : final.Tidied True := by
  obtain ⟨_, _, _, _, cuts, founds, stops, _⟩ := layout_of_run (by simp [Pass.fragments, Pass.blocks]) lays
  obtain ⟨_, _, _, _, cutsToo, foundsToo, tidied, onward⟩ := tidied_of_laid ordered later done
  -- Both runs start with the same two passes.
  cases cuts.symm.trans cutsToo
  cases founds.symm.trans foundsToo
  obtain rfl := stops rfl
  exact onward _ (tidied.of_closed closed)

end

end Structuring
