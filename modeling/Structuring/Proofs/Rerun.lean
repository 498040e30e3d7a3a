import Structuring.Proofs.WholeRun

/-! Runs on a finished context.

Every pass looks for branches. Where none is left it finds nothing, neither to change nor to complain
about, so a second run on what the first one has made leaves all of it as it is. An operation that
branches always has a target in assembled code, so looking for the operation is enough.
-/

namespace Structuring

open Bytecode Recovery FlowGraph

variable {α : Type}

/-! Operations that go to a label -/

/-- Whether an operation is always written with a label. -/
def Bytecode.Opcode.takesLabel : Opcode → Bool
  | .b | .bt | .bf | .pushenv => true
  | _ => false

theorem Bytecode.Code.Assembled.isBranch {code : Code} (assembled : code.Assembled) {inst : Instruction}
    (member : inst ∈ code.instructions) (takes : inst.opcode.takesLabel = true) : inst.isBranch = true := by
  rcases assembled.aims inst member (by cases isOpcode : inst.opcode <;> simp_all [Opcode.takesLabel, Opcode.isBranch])
    with isBranch | ⟨isLeave, _⟩
  · exact isBranch
  · exact absurd takes (by simp [isLeave, Opcode.takesLabel])

/-! Nodes without branches -/

def FlowGraph.Node.Plain (node : Node) : Prop :=
  ∀ inst ∈ node.instructions, inst.isBranch = false ∧ inst.opcode.takesLabel = false

namespace FlowGraph.Node.Plain

variable {node : Node} {inst : Instruction}

theorem bare (plain : node.Plain) : Bare node.instructions := fun inst member => (plain inst member).1

theorem last (plain : node.Plain) (isLast : node.last? = some inst) :
    inst.isBranch = false ∧ inst.opcode.takesLabel = false :=
  plain inst (List.mem_of_getLast? isLast)

theorem target?_eq_none (plain : node.Plain) : node.target? = none := by
  refine Option.eq_none_iff_forall_ne_some.mpr fun target goes => ?_
  obtain ⟨inst, isLast, goes⟩ := Option.bind_eq_some_iff.mp goes
  have none := (plain.last isLast).1
  rw [Instruction.isBranch, goes] at none
  cases none

theorem lastOpcode?_ne {opcode : Opcode} (plain : node.Plain) (takes : opcode.takesLabel = true) :
    node.lastOpcode? ≠ some opcode := by
  intro same
  obtain ⟨inst, isLast, rfl⟩ := Option.map_eq_some_iff.mp same
  exact absurd ((plain.last isLast).2.symm.trans takes) Bool.false_ne_true

theorem caseTarget?_eq_none (plain : node.Plain) : caseTarget? node = none := by
  unfold caseTarget?
  split
  · next branch compare rest isReverse =>
    have member : branch ∈ node.instructions := by
      rw [← List.mem_reverse, isReverse]
      exact .head _
    have none := (plain branch member).1
    rw [Instruction.isBranch, Option.isSome_eq_false_iff, Option.isNone_iff_eq_none] at none
    simp [Instruction.targetOf?, none]
  · rfl

theorem isStaticGuard_eq_false (plain : node.Plain) : isStaticGuard node = false := by
  unfold isStaticGuard
  split
  · next branch check rest isReverse =>
    have member : branch ∈ node.instructions := by
      rw [← List.mem_reverse, isReverse]
      exact .head _
    have takes := (plain branch member).2
    have other : branch.opcode ≠ .bt := by
      intro same
      rw [same] at takes
      exact absurd takes (by simp [Opcode.takesLabel])
    simp [other]
  · rfl

end FlowGraph.Node.Plain

/-! Passes that find nothing -/

variable {source : Source} {session : Session}

structure Recovery.Session.Finished (session : Session) : Prop where
  sound : session.Sound
  blocks : session.blocks ≠ []
  rooted : session.root.isSome = true
  plain : ∀ id, (session.graph.node id).Plain
  unclaimed : session.claims = {}

theorem run_getClaims_bind (rest : Claims → Recover α) (session : Session) :
    (getClaims >>= rest).run session = (rest session.claims).run session := rfl

theorem run_tell_bind (event : Event) (rest : Unit → Recover α) (session : Session) :
    (tell event >>= rest).run session = (rest ()).run { session with log := session.log.push event } := rfl

theorem run_foldlM_false (step : Bool → α → Recover Bool) (items : List α)
    (still : ∀ item, (step false item).run session = .ok false session) :
    (items.foldlM step false).run session = .ok false session := by
  induction items with
  | nil => rfl
  | cons item rest ih =>
    rw [List.foldlM_cons, run_bind_of_ok (still item)]
    exact ih

theorem dispatchesFrom_eq_nil {graph : FlowGraph} (noCase : ∀ id, caseTarget? (graph.node id) = none)
    (fragment : NodeId) (before blocks : List NodeId) :
    dispatchesFrom graph fragment before blocks = .ok [] := by
  induction blocks generalizing before with
  | nil => rfl
  | cons block rest ih =>
    have none : dispatchAt graph fragment block before = .ok none := by
      cases before with
      | nil => rfl
      | cons last _ => simp [dispatchAt, isCaseBefore, noCase last]
    rw [dispatchesFrom, none, ih]
    rfl

theorem findDispatches_eq_nil {context : Context} (noCase : ∀ id, caseTarget? (context.graph.node id) = none) :
    findDispatches context = .ok [] := by
  have none : (context.fragments.mapM fun fragment =>
      dispatchesFrom context.graph fragment [] (fragmentBlocks context.graph fragment)) =
      .ok (context.fragments.map fun _ => []) := by
    simp only [dispatchesFrom_eq_nil noCase]
    exact List.mapM_pure
  rw [findDispatches, none]
  simp [bind, Except.bind, pure, Except.pure, stableSort]

theorem locateSwitches_of_noCase (noCase : ∀ id, caseTarget? (session.graph.node id) = none)
    (unclaimed : session.claims = {}) : (locateSwitches source).run session = .ok false session := by
  rw [locateSwitches, run_getContext_bind, findDispatches_eq_nil noCase]
  change EStateM.Result.ok (!session.claims.switches.isEmpty) session = _
  rw [unclaimed]
  rfl

namespace Recovery.Session.Finished

theorem run_buildBlocks (finished : session.Finished) :
    (buildBlocks source).run session = .ok false session := by
  rw [buildBlocks, run_getContext_bind, if_pos (by simp [finished.blocks])]
  rfl

theorem run_buildFragments (finished : session.Finished) :
    (buildFragments source).run session = .ok false session := by
  rw [buildFragments, run_getContext_bind, if_pos finished.rooted]
  rfl

theorem run_locateSwitches (finished : session.Finished) :
    (locateSwitches source).run session = .ok false session :=
  locateSwitches_of_noCase (fun id => (finished.plain id).caseTarget?_eq_none) finished.unclaimed

theorem run_scan {graph : FlowGraph} (plain : ∀ id, (graph.node id).Plain) (scan : CandidateScan)
    (blocks : List NodeId) (next : Option NodeId) (remaining : List NodeId) :
    scan.run graph blocks next remaining = .ok scan := by
  induction remaining generalizing next with
  | nil => rfl
  | cons block rest ih =>
    have nothing : scan.visit graph blocks next block = .ok scan := by
      simp [CandidateScan.visit, (plain block).target?_eq_none]
    rw [CandidateScan.run, nothing]
    exact ih _

section

variable {pass : Pass} (finished : session.Finished)

include finished

theorem run_buildFragmentLoops (fragment : NodeId) :
    (buildFragmentLoops source fragment).run session = .ok false session := by
  have none : findCandidates session.graph fragment = .ok [] := by
    rw [findCandidates, run_scan finished.plain]
    rfl
  rw [buildFragmentLoops, run_getGraph_bind, none]
  rfl

theorem run_buildLoops : (buildLoops source).run session = .ok false session := by
  rw [buildLoops, run_getContext_bind]
  refine run_foldlM_false _ _ fun fragment => ?_
  rw [run_bind_of_ok (finished.run_buildFragmentLoops fragment)]
  rfl

theorem run_buildChainsFrom (jump : NodeId) (blocks : List NodeId) :
    (buildChainsFrom source jump blocks).run session = .ok false session := by
  induction blocks generalizing jump with
  | nil => rfl
  | cons constant rest ih =>
    have none : diamondAt? session.graph session.claims jump constant = none := by
      have bare := (finished.plain jump).bare
      simp [diamondAt?, Node.jumpTarget?_of_bare bare]
    have nothing : (buildChainAt source jump constant).run session = .ok false session := by
      rw [buildChainAt, run_getGraph_bind, run_getClaims_bind, none]
      rfl
    rw [buildChainsFrom, run_bind_of_ok nothing, run_bind_of_ok (ih constant)]
    rfl

theorem run_buildChains : (buildChains source).run session = .ok false session := by
  unfold buildChains
  split
  · rw [run_getContext_bind]
    split
    · rfl
    · exact finished.run_buildChainsFrom _ _
  · rfl

theorem run_convertSwitchBreaks : convertSwitchBreaks.run session = .ok false session := by
  rw [convertSwitchBreaks, run_getClaims_bind, finished.unclaimed]
  rfl

theorem leftoverFailure?_eq_none (block : NodeId) :
    leftoverFailure? source session.context session.claims block = none := by
  refine Option.bind_eq_none_iff.mpr fun inst isLast => ?_
  simp [((finished.plain block).last isLast).1]

theorem run_buildConditionals : (buildConditionals source).run session = .ok false session := by
  have none : (session.blocks.reverse.filter fun block =>
      !session.claims.isClaimed block && (session.graph.node block).lastOpcode? == some .bf) = [] := by
    refine List.filter_eq_nil_iff.mpr fun block _ => ?_
    have last : (session.graph.node block).lastOpcode? ≠ some .bf := (finished.plain block).lastOpcode?_ne rfl
    simp [last]
  have settled : session.blocks.findSome?
      (leftoverFailure? source session.context session.claims) = Option.none :=
    List.findSome?_eq_none_iff.mpr fun block _ => finished.leftoverFailure?_eq_none block
  rw [buildConditionals, run_bind_of_ok finished.run_buildChains,
    run_bind_of_ok finished.run_convertSwitchBreaks, run_getContext_bind, run_getClaims_bind, none]
  dsimp only [List.forM]
  rw [pure_bind, run_getContext_bind, settled]
  rfl

theorem run_insertSwitches : (insertSwitches source).run session = .ok false session := by
  have same : { session with claims := { session.claims with switches := [] } } = session := by
    rw [finished.unclaimed, ← finished.unclaimed]
  rw [insertSwitches, run_getClaims_bind, finished.unclaimed]
  exact congrArg (EStateM.Result.ok false) same

theorem run_buildStaticInits : (buildStaticInits source).run session = .ok false session := by
  unfold buildStaticInits
  split
  · have none : (session.blocks.filter fun block =>
        isStaticGuard (session.graph.node block)) = [] := by
      refine List.filter_eq_nil_iff.mpr fun block _ => ?_
      simp [(finished.plain block).isStaticGuard_eq_false]
    rw [run_getContext_bind, none]
    rfl
  · rfl

theorem run_pass (standard : pass ∈ Pass.standard) : (pass.apply source).run session = .ok false session := by
  simp only [Pass.standard, List.mem_cons, List.not_mem_nil, or_false] at standard
  rcases standard with rfl | rfl | rfl | rfl | rfl | rfl | rfl
  · exact finished.run_buildBlocks
  · exact finished.run_buildFragments
  · exact finished.run_locateSwitches
  · exact finished.run_buildLoops
  · exact finished.run_buildConditionals
  · exact finished.run_insertSwitches
  · exact finished.run_buildStaticInits

theorem run_applyPass (standard : pass ∈ Pass.standard) (verify : Bool) :
    (applyPass source verify pass).run session =
      .ok false { session with log := session.log.push (.passed pass.name source.code.name false) } := by
  rw [applyPass, run_bind_of_ok (finished.run_pass standard), run_tell_bind]
  split
  · rw [run_getGraph_bind, finished.sound.graph.edges.edgeMismatch?_eq_none]
    rfl
  · rfl

theorem told (log : Array Event) : { session with log }.Finished where
  sound :=
    { graph := finished.sound.graph, blocks := finished.sound.blocks, root := finished.sound.root
      fragments := finished.sound.fragments, structures := finished.sound.structures
      claims := finished.sound.claims }
  blocks := finished.blocks
  rooted := finished.rooted
  plain := finished.plain
  unclaimed := finished.unclaimed

theorem run_runPasses (options : RunOptions) (changed : List String)
    {passes : List Pass} (standard : ∀ pass ∈ passes, pass ∈ Pass.standard) :
    ∃ stoppedEarly log, (runPasses source options changed passes).run session =
      .ok ⟨stoppedEarly, changed⟩ { session with log } := by
  induction passes generalizing session with
  | nil =>
    refine ⟨false, session.log, ?_⟩
    have bare : AllBare session.graph := fun id => (finished.plain id).bare
    rw [runPasses, run_getGraph_bind, bare.remainingJump?_eq_none]
    rfl
  | cons pass rest ih =>
    rw [runPasses, run_bind_of_ok (finished.run_applyPass (standard pass (.head _)) options.verify)]
    simp only [Bool.false_eq_true, ↓reduceIte]
    split
    · exact ⟨true, _, rfl⟩
    · exact ih (finished.told _) fun pass member => standard pass (.tail _ member)

end

end Recovery.Session.Finished

theorem Recovery.Session.Complete.finished (complete : session.Complete source) (sound : session.Sound)
    (labelled : ∀ inst ∈ source.code.instructions, inst.opcode.takesLabel = true → inst.isBranch = true) :
    { session with claims := {} }.Finished where
  sound := (revises_clearClaims session).ends sound |>.1.sound sound
  blocks := complete.cut.blocks_ne_nil
  rooted := complete.rooted
  plain := by
    intro id inst member
    have none := complete.bare id inst member
    refine ⟨none, Bool.eq_false_iff.mpr fun takes => ?_⟩
    have among := (complete.code id inst member).1
    exact absurd (none.symm.trans (labelled inst among takes)) Bool.false_ne_true
  unclaimed := rfl

variable {outcome : RunOutcome} {final : Session}

/-- When assembled code has been structured, to run the passes once more changes nothing, under
whatever features. -/
theorem rerun_leaves_context {name listing : String} {code : Code} {features : Features}
    (assembled : Assembly.assemble name listing = .ok code)
    (done : structureEntry ⟨code, features⟩ = .ok outcome final) (others : Features)
    (options : RunOptions) :
    ∃ rerun again, (run ⟨code, others⟩ options Pass.standard).run final = .ok rerun again ∧
      (options.dumpAfter = none → rerun.stoppedEarly = false) ∧ rerun.changed = [] ∧
      again.context = final.context := by
  obtain ⟨edits, complete⟩ := ends_structureEntry (Assembly.inOrder_of_assemble assembled) done
  have finished := complete.finished (edits.sound Session.sound_empty) fun inst member =>
    (Assembly.assembled_of_assemble assembled).isBranch member
  obtain ⟨early, log, ran⟩ : ∃ early log, (run ⟨code, others⟩ options Pass.standard).run final = .ok
      { stoppedEarly := early, changed := [] } { final with claims := {}, log } :=
    finished.run_runPasses options [] fun _ => id
  exact ⟨_, _, ran, fun never => stoppedEarly_of_runPasses never ran, rfl, rfl⟩

def onceAndLoop : String :=
  "isstaticok.e\nbt [done]\npushi.e 1\npop.v.i static.s\n:[done]\nsetstatic.e\n"
    ++ ":[head]\npush.v self.a\nconv.v.b\nbf [zero]\npush.v self.b\nconv.v.b\nb [test]\n:[zero]\n"
    ++ "push.e 0\n:[test]\nbf [end]\nb [head]\n:[end]\nexit.i"

theorem rerun_leaves_context_onceAndLoop :
    ∃ code outcome final again, Assembly.assemble "entry" onceAndLoop = .ok code ∧
      structureEntry ⟨code, .all⟩ = .ok outcome final ∧
      outcome.changed = ["blocks", "fragments", "loops", "branches", "static-init"] ∧
      (run ⟨code, .all⟩ {} Pass.standard).run final = .ok ⟨false, []⟩ again ∧
      again.context = final.context := by
  obtain ⟨code, outcome, final, assembled, done, passes⟩ :=
    exists_of_evaluates "entry" onceAndLoop (structureEntry ⟨·, .all⟩) (fun _ outcome _ =>
      outcome.changed = ["blocks", "fragments", "loops", "branches", "static-init"]) (by decide +kernel)
  obtain ⟨⟨early, changed⟩, again, ran, ends, none, same⟩ := rerun_leaves_context assembled done .all {}
  cases ends rfl
  cases none
  exact ⟨code, outcome, final, again, assembled, done, passes, ran, same⟩

end Structuring
