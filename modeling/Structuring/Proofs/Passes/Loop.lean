import Structuring.Proofs.Landing
import Structuring.Proofs.Nesting
import Structuring.Proofs.Provenance
import Structuring.Recovery.Loop.Build

/-! Loops as edits.

A candidate goes from a block to one that branches back to it. What becomes of the jumps inside a
loop is settled by where it starts, where its tail starts, and where it and its function stop.
-/

namespace Structuring.Recovery

open Bytecode FlowGraph

variable {rights : Rights} {session : Session} {source : Source} {fragment block tail : NodeId}
  {graph : FlowGraph} {blocks : List NodeId} {scan : CandidateScan} {next : Option NodeId} {context : Context}
  {shape : LoopShape}

/-! Candidates -/

structure Candidate.Found (graph : FlowGraph) (fragment : NodeId) (candidate : Candidate) : Prop where
  head : candidate.head ∈ fragmentBlocks graph fragment
  tail : candidate.tail ∈ fragmentBlocks graph fragment
  stop : (graph.node candidate.tail).stop = candidate.stop
  back : candidate.shape ≠ .withLoop → (graph.node candidate.tail).target? = some candidate.start

theorem blockAt?_spec {address : Nat} (found : graph.blockAt? blocks address = some block) :
    block ∈ blocks ∧ (graph.node block).start = address :=
  ⟨List.mem_of_find?_eq_some found, by simpa using List.find?_some found⟩

theorem yields_visit (known : ∀ candidate ∈ scan.candidates, candidate.Found graph fragment)
    (isBlock : block ∈ fragmentBlocks graph fragment) (isNext : ∀ id ∈ next, id ∈ fragmentBlocks graph fragment) :
    Yields (scan.visit graph (fragmentBlocks graph fragment) next block) fun scan =>
      ∀ candidate ∈ scan.candidates, candidate.Found graph fragment := by
  have append {candidate : Candidate} (found : candidate.Found graph fragment) :
      ∀ other ∈ scan.candidates ++ [candidate], other.Found graph fragment := by
    exact List.forall_mem_append.mpr ⟨known, List.forall_mem_singleton.mpr found⟩
  unfold CandidateScan.visit
  dsimp only
  split
  · next opcode target _ isTarget =>
    split
    · split
      · next head tail isTail =>
        exact append ⟨isNext head rfl, (blockAt?_spec isTail).1, rfl, fun other => absurd rfl other⟩
      · rfl
    · split
      · exact known
      · split
        · next head isHead =>
          have found (shape : CandidateShape) : Candidate.Found graph fragment
              ⟨shape, head, block, target, (graph.node block).stop⟩ :=
            ⟨(blockAt?_spec isHead).1, isBlock, rfl, fun _ => isTarget⟩
          unfold CandidateScan.addBackEdge
          dsimp only
          split
          · split
            · exact known
            · exact append (found .whileLoop)
          · exact append (found .doUntil)
          · exact append (found .repeatLoop)
          · exact known
          · exact known
        · rfl
  · exact known

theorem yields_scan (known : ∀ candidate ∈ scan.candidates, candidate.Found graph fragment)
    (areBlocks : ∀ block ∈ blocks, block ∈ fragmentBlocks graph fragment)
    (isNext : ∀ id ∈ next, id ∈ fragmentBlocks graph fragment) :
    Yields (scan.run graph (fragmentBlocks graph fragment) next blocks) fun scan =>
      ∀ candidate ∈ scan.candidates, candidate.Found graph fragment := by
  induction blocks generalizing scan next with
  | nil => exact known
  | cons block rest ih =>
    have isBlock := areBlocks block (.head _)
    have visited := yields_visit known isBlock isNext
    unfold CandidateScan.run
    cases isScan : scan.visit graph (fragmentBlocks graph fragment) next block with
    | error failure =>
      rw [isScan] at visited
      exact visited
    | ok scan =>
      rw [isScan] at visited
      refine ih visited (fun other member => areBlocks other (.tail _ member)) ?_
      rintro _ ⟨⟩
      exact isBlock

theorem yields_findCandidates (graph : FlowGraph) (fragment : NodeId) :
    Yields (findCandidates graph fragment) fun candidates =>
      ∀ candidate ∈ candidates, candidate.Found graph fragment := by
  have scanned : Yields (CandidateScan.run {} graph (fragmentBlocks graph fragment) none
      (fragmentBlocks graph fragment).reverse) fun scan =>
        ∀ candidate ∈ scan.candidates, candidate.Found graph fragment :=
    yields_scan (List.forall_mem_nil _) (fun _ => List.mem_reverse.mp) fun _ => nofun
  unfold findCandidates
  dsimp only
  split
  · next failure isFailure =>
    rw [isFailure] at scanned
    exact scanned
  · next scan isScan =>
    rw [isScan] at scanned
    split
    · rfl
    · exact scanned

theorem yields_orderCandidates (candidates : List Candidate) :
    Yields (orderCandidates candidates) fun ordered => ∀ candidate ∈ ordered, candidate ∈ candidates := by
  unfold orderCandidates
  split
  · rfl
  · exact fun candidate member => mem_stableSort.mp member

/-! Jumps in loops -/

def LoopExits.Means (exits : LoopExits) (functionStop target : Nat) : Sentinel → Prop
  | .breaks => target ∈ exits.breaks
  | .continues => target ∈ exits.continues
  | .returns => target = functionStop
  | .empty => False

/-- A jump from a block that a loop leaves as it is. It leaves a switch, stays in the loop, or ends the
first arm of a conditional. -/
def LoopExits.Leaves (exits : LoopExits) (claims : Claims) (node : Node) (target : Nat) : Prop :=
  claims.isSwitchExit node.start target = true ∨ (exits.start ≤ target ∧ target < exits.stop) ∨
    target ∈ exits.continues ∧ node.stop < target

theorem yields_meaning (exits : LoopExits) (graph : FlowGraph) (claims : Claims) (functionStop : Nat)
    (blocks : List NodeId) (block : NodeId) (target : Nat) :
    Yields (exits.meaning graph claims functionStop blocks block target) fun
      | some sentinel => exits.Means functionStop target sentinel ∧
          claims.isSwitchExit (graph.node block).start target = false
      | none => exits.Leaves claims (graph.node block) target := by
  unfold LoopExits.meaning
  dsimp only
  split
  · next leaves => exact .inl leaves
  · next stays =>
    have stays := Bool.eq_false_iff.mpr stays
    split
    · next breaks => exact ⟨List.contains_iff_mem.mp breaks, stays⟩
    · split
      · next continues =>
        have continues := List.contains_iff_mem.mp continues
        split
        · next skips => exact .inr (.inr ⟨continues, by simp_all [skipsElse]⟩)
        · exact ⟨continues, stays⟩
      · split
        · next returns => exact ⟨returns, stays⟩
        · split
          · rfl
          · next within => exact .inr (.inl (by omega))

section

variable {exits : LoopExits} (kept : ¬rights.claims)

theorem revises_convertJump
    (marks : ∀ jump target sentinel, jump.targetOf? .b = some target →
      exits.Means (session.graph.node fragment).stop target sentinel →
      session.claims.isSwitchExit (session.graph.node block).start target = false → rights.marks block jump sentinel) :
    Revises rights (convertJump fragment exits blocks block) session fun _ next =>
      Clips rights session.graph next.graph ∧ (Bare (session.graph.node block).instructions.dropLast →
        ∀ target, (next.graph.node block).jumpTarget? = some target →
          exits.Leaves session.claims (session.graph.node block) target) := by
  refine .getGraph_bind ?_
  split
  · next none => exact .pure ⟨.refl, fun _ target jumps => absurd (none.symm.trans jumps) (by simp)⟩
  · next target isTarget =>
    obtain ⟨jump, last, isJump⟩ := Option.bind_eq_some_iff.mp isTarget
    refine .getClaims_bind ?_
    have meaning := yields_meaning exits session.graph session.claims
      (session.graph.node fragment).stop blocks block target
    split
    · next failure isFailure =>
      rw [isFailure] at meaning
      exact .throw meaning
    · next isNone =>
      rw [isNone] at meaning
      exact .pure ⟨.refl, fun _ other jumps => Option.some.inj (isTarget.symm.trans jumps) ▸ meaning⟩
    · next sentinel isSentinel =>
      rw [isSentinel] at meaning
      refine .tell_bind fun next _ _ same => ?_
      rw [← same] at last ⊢
      have clips : Clips rights next.graph (next.graph.replaceJump block sentinel).1 := by
        refine .single (.mark block sentinel fun other isLast => ?_)
        cases last.symm.trans isLast
        exact ⟨Instruction.opcode_eq isJump, fun _ => marks jump target sentinel isJump meaning.1 meaning.2⟩
      refine .imp (.modifyGraph clips.edits) fun _ final isFinal => ?_
      subst isFinal
      refine ⟨clips, fun init target jumps => ?_⟩
      have held := instructions_replaceJump next.graph block sentinel block
      rw [if_pos rfl] at held
      cases (Node.jumpTarget?_of_bare (held ▸ init)).symm.trans jumps

include kept

theorem revises_convertJumps (owner : session.graph.Owner fragment)
    (marks : ∀ block ∈ blocksWithin session.graph fragment exits.start exits.stop,
      ∀ jump target sentinel, jump.targetOf? .b = some target →
        exits.Means (session.graph.node fragment).stop target sentinel →
        session.claims.isSwitchExit (session.graph.node block).start target = false →
        rights.marks block jump sentinel) :
    Revises rights (convertJumps fragment exits) session fun _ next =>
      Clips rights session.graph next.graph ∧ ∀ block ∈ blocksWithin session.graph fragment exits.start exits.stop,
        Bare (session.graph.node block).instructions.dropLast → ∀ target,
          (next.graph.node block).jumpTarget? = some target →
            exits.Leaves session.claims (session.graph.node block) target := by
  refine .of_sound fun sound => .getGraph_bind ?_
  have bound {block : NodeId} (member : block ∈ blocksWithin session.graph fragment exits.start exits.stop) :
      block < session.graph.size := lt_of_mem_fragmentBlocks sound.graph (List.mem_filter.mp member).1
  have each (block : NodeId) (member : block ∈ blocksWithin session.graph fragment exits.start exits.stop)
      (next : Session) (toNext : Edits rights session next) :
      Revises rights (convertJump fragment exits (blocksWithin session.graph fragment exits.start exits.stop) block)
        next fun _ final => Clips rights next.graph final.graph ∧
          (Bare (next.graph.node block).instructions.dropLast → ∀ target,
            (final.graph.node block).jumpTarget? = some target →
              exits.Leaves next.claims (next.graph.node block) target) := by
    refine revises_convertJump fun jump target sentinel isJump means stays => ?_
    rw [(toNext.grows.nodes fragment owner.lt).stop] at means
    rw [toNext.claims_eq kept, (toNext.grows.nodes block (bound member)).start] at stays
    exact marks block member jump target sentinel isJump means stays
  refine .and (.forKeep _ .refl fun block member next toNext clips => ?_)
    (.forM (fun block final => Bare (session.graph.node block).instructions.dropLast → ∀ target,
      (final.graph.node block).jumpTarget? = some target →
        exits.Leaves session.claims (session.graph.node block) target) ?_ fun block member next toNext => ?_)
  · exact .imp (each block member next toNext) fun _ _ done => clips.trans done.1
  · intro block member first second toFirst toSecond leaves init target jumps
    have becomes := toFirst.grows.nodes block (bound member)
    have later := toSecond.grows.nodes block (toFirst.lt (bound member))
    exact leaves init target (later.jumpTarget? (init.dropLast becomes.instructions) jumps)
  · refine .imp (each block member next toNext) fun _ final done init target jumps => ?_
    have becomes := toNext.grows.nodes block (bound member)
    have leaves := done.2 (init.dropLast becomes.instructions) target jumps
    rwa [LoopExits.Leaves, toNext.claims_eq kept, becomes.start, becomes.stop] at leaves

end

/-! Shapes -/

def Candidate.idiom? (candidate : Candidate) (source : Source) (context : Context) :
    Option DropIdiom :=
  if candidate.shape = .withLoop ∧ source.features.has .withBreakBlocks = true then
    dropIdiom? context candidate.tail
  else none

def Candidate.extent (candidate : Candidate) (source : Source) (context : Context) : Nat :=
  ((candidate.idiom? source context).map (·.target)).getD (context.graph.node candidate.tail).stop

def Candidate.Means (candidate : Candidate) (source : Source) (context : Context)
    (functionStop target : Nat) : Sentinel → Prop
  | .breaks => target = candidate.extent source context ∨
      ∃ idiom, candidate.idiom? source context = some idiom ∧ target = (context.graph.node idiom.drop).start
  | .continues => target = candidate.start ∨ target = (context.graph.node candidate.tail).start
  | .returns => target = functionStop
  | .empty => False

def Candidate.Permitted (candidate : Candidate) (rights : Rights) (source : Source) (session : Session)
    (fragment : NodeId) : Prop :=
  ∀ block ∈ blocksWithin session.graph fragment candidate.start (candidate.extent source session.context),
    ∀ jump target sentinel, jump.targetOf? .b = some target →
      candidate.Means source session.context (session.graph.node fragment).stop target sentinel →
      session.claims.isSwitchExit (session.graph.node block).start target = false →
      rights.marks block jump sentinel

inductive Candidate.Shapes (candidate : Candidate) (source : Source) (context : Context) : LoopShape → Prop
  | whileLoop (isWhile : candidate.shape = .whileLoop) (counts : Bool) :
      Shapes candidate source context (.whileLoop (!counts) (if counts then some candidate.tail else none))
  | doUntil (isUntil : candidate.shape = .doUntil) : Shapes candidate source context .doUntil
  | repeatLoop (isRepeat : candidate.shape = .repeatLoop) : Shapes candidate source context .repeatLoop
  | withLoop (isWith : candidate.shape = .withLoop)
      (back : isEnvironmentTail (context.graph.node candidate.tail) candidate.start = true) :
      Shapes candidate source context (.withLoop ((candidate.idiom? source context).map (·.drop)))

/-- The jumps that a loop leaves as they are, in terms of its candidate. -/
def Candidate.Leaves (candidate : Candidate) (source : Source) (session : Session) (block : NodeId)
    (target : Nat) : Prop :=
  session.claims.isSwitchExit (session.graph.node block).start target = true ∨
    (candidate.start ≤ target ∧ target < candidate.extent source session.context) ∨
    (target = candidate.start ∨ target = (session.graph.node candidate.tail).start) ∧
      (session.graph.node block).stop < target

/-- No jump is left in the range of a loop but those that the loop leaves as they are. -/
def Candidate.Converted (candidate : Candidate) (source : Source) (session : Session) (fragment : NodeId)
    (graph : FlowGraph) : Prop :=
  ∀ block ∈ blocksWithin session.graph fragment candidate.start (candidate.extent source session.context),
    Bare (session.graph.node block).instructions.dropLast → ∀ target,
      (graph.node block).jumpTarget? = some target → candidate.Leaves source session block target

theorem Candidate.Converted.later {candidate : Candidate} {after : FlowGraph}
    (converted : candidate.Converted source session fragment graph) (sound : session.Sound)
    (grows : Grows session.graph graph) (later : Grows graph after) :
    candidate.Converted source session fragment after := by
  intro block member init target jumps
  have bound := lt_of_mem_fragmentBlocks sound.graph (List.mem_filter.mp member).1
  have before := init.dropLast (grows.nodes block bound).instructions
  exact converted block member init target ((later.nodes block (grows.lt bound)).jumpTarget? before jumps)

structure ShapedLoop.Known (shaped : ShapedLoop) (rights : Rights) (source : Source) (session : Session)
    (candidate : Candidate) (fragment headTop : NodeId) (graph : FlowGraph) : Prop where
  clips : Clips rights session.graph graph
  shape : candidate.Shapes source session.context shaped.shape
  body : ∀ id, shaped.body = some id → id = headTop ∨ ∃ first block, Clips rights session.graph first ∧
    (first.node block).parent = some fragment ∧ (first.node block).kind.isBlock = true ∧
    LeadsAmid rights first graph block id
  exit : ∀ id, shaped.exit = some id → id < graph.size
  stop : shaped.stop = candidate.extent source session.context
  converted : candidate.Converted source session fragment graph
  drop : ∀ idiom, candidate.idiom? source session.context = some idiom →
    (graph.node idiom.drop).instructions = []

theorem lt_of_nextBlock? (sound : session.Sound) {next : NodeId}
    (found : session.context.nextBlock? block = some next) : next < session.graph.size :=
  lt_size_of_isBlock (sound.isBlock_nextBlock? found)

structure Candidate.Ready (candidate : Candidate) (graph : FlowGraph) (fragment : NodeId) : Prop where
  owner : graph.Owner fragment
  tail : candidate.tail < graph.size
  stop : (graph.node candidate.tail).stop = candidate.stop

theorem revises_convertJumps_later {next : Session} {candidate : Candidate}
    {exits : LoopExits} (settled : ¬rights.owns) (kept : ¬rights.claims) (sound : session.Sound)
    (ready : candidate.Ready session.graph fragment)
    (permitted : candidate.Permitted rights source session fragment)
    (edits : Edits rights session next) (start : exits.start = candidate.start)
    (stop : exits.stop = candidate.extent source session.context)
    (breaks : ∀ target ∈ exits.breaks, target = candidate.extent source session.context ∨
      ∃ idiom, candidate.idiom? source session.context = some idiom ∧
        target = (session.graph.node idiom.drop).start)
    (continues : ∀ target ∈ exits.continues, target = candidate.start ∨
      target = (session.graph.node candidate.tail).start) :
    Revises rights (convertJumps fragment exits) next fun _ final =>
      Clips rights next.graph final.graph ∧ candidate.Converted source session fragment final.graph := by
  have bound {block : NodeId} (member : block ∈ fragmentBlocks session.graph fragment) :=
    edits.grows.nodes block (lt_of_mem_fragmentBlocks sound.graph member)
  have same : blocksWithin next.graph fragment exits.start exits.stop =
      blocksWithin session.graph fragment candidate.start (candidate.extent source session.context) := by
    rw [blocksWithin, blocksWithin, edits.fragmentBlocks_eq settled, start, stop]
    refine List.filter_congr fun block member => ?_
    rw [Node.startsWithin, Node.startsWithin, (bound member).start]
  refine .imp (revises_convertJumps kept (edits.owner ready.owner)
    fun block member jump target sentinel isJump why stays => ?_) fun _ final done =>
      ⟨done.1, fun block member init target jumps => ?_⟩
  · rw [same] at member
    rw [edits.claims_eq kept, (bound (List.mem_filter.mp member).1).start] at stays
    rw [(edits.grows.nodes fragment ready.owner.lt).stop] at why
    refine permitted block member jump target sentinel isJump ?_ stays
    cases sentinel with
    | breaks => exact breaks target why
    | continues => exact continues target why
    | returns => exact why
    | empty => exact why
  · have becomes := bound (List.mem_filter.mp member).1
    have leaves := done.2 block (same ▸ member) (init.dropLast becomes.instructions) target jumps
    rw [LoopExits.Leaves, edits.claims_eq kept, becomes.start, becomes.stop, start, stop] at leaves
    exact leaves.imp id (Or.imp id fun skips => ⟨continues target skips.1, skips.2⟩)

theorem Candidate.idiom?_of_plain {candidate : Candidate} (plain : candidate.shape ≠ .withLoop) :
    candidate.idiom? source context = none := by
  simp [Candidate.idiom?, plain]

theorem Candidate.extent_of_plain {candidate : Candidate} (plain : candidate.shape ≠ .withLoop) :
    candidate.extent source context = (context.graph.node candidate.tail).stop := by
  simp [Candidate.extent, Candidate.idiom?_of_plain plain]

theorem instructions_clearDrop (graph : FlowGraph) (drop : NodeId) :
    ((clearDrop graph drop).node drop).instructions = [] := by
  unfold clearDrop
  refine List.foldlRecOn (motive := fun next : FlowGraph => (next.node drop).instructions = [])
    _ _ ?_ fun next cleared source _ => ?_
  · rw [(sameCores_clearSuccessors _ drop).instructions, instructions_mapInstructions rfl]
  · refine removeAllEdges_induction (fun next : FlowGraph => (next.node drop).instructions = [])
      cleared fun next cleared => ?_
    rw [(sameCores_removeEdge next source drop).instructions, cleared]

structure DropIdiom.Follows (idiom : DropIdiom) (context : Context) (tail : NodeId) : Prop where
  jump : context.nextBlock? tail = some idiom.jump
  drop : context.nextBlock? idiom.jump = some idiom.drop
  across : ∃ inst, (context.graph.node idiom.jump).instructions = [inst] ∧ inst.targetOf? .b = some idiom.target
  drops : ∃ inst, (context.graph.node idiom.drop).instructions = [inst] ∧
    inst.opcode = .popenv ∧ inst.operand = .drop
  beyond : (context.graph.node idiom.drop).stop ≤ idiom.target

theorem dropIdiom?_spec {idiom : DropIdiom}
    (found : dropIdiom? context tail = some idiom) : idiom.Follows context tail := by
  unfold dropIdiom? at found
  obtain ⟨jump, isJump, found⟩ := Option.bind_eq_some_iff.mp found
  obtain ⟨drop, isDrop, found⟩ := Option.bind_eq_some_iff.mp found
  dsimp only at found
  split at found
  · next across isAcross =>
    obtain ⟨target, goes, found⟩ := Option.bind_eq_some_iff.mp found
    obtain ⟨drops, same⟩ := Option.ite_none_right_eq_some.mp found
    cases same
    obtain ⟨drops, beyond⟩ := Bool.and_eq_true_iff.mp drops
    refine ⟨isJump, isDrop, ⟨across, isAcross, goes⟩, ?_, of_decide_eq_true beyond⟩
    split at drops
    · next only isOnly => exact ⟨only, isOnly, by simp_all⟩
    · cases drops
  · cases found

theorem targetOf?_of_isEnvironmentTail {node : Node} {start : Nat}
    (isTail : isEnvironmentTail node start = true) :
    ∃ inst, node.instructions = [inst] ∧ inst.targetOf? .popenv = some start := by
  unfold isEnvironmentTail at isTail
  split at isTail
  · next only isOnly => exact ⟨only, isOnly, eq_of_beq isTail⟩
  · exact absurd isTail Bool.false_ne_true

section

variable {candidate : Candidate} {headTop : NodeId}

theorem Candidate.Shapes.lt (shapes : candidate.Shapes source session.context shape)
    (sound : session.Sound) (tail : candidate.tail < session.graph.size) {ref : NodeId}
    (member : ref ∈ shape.references) : ref < session.graph.size := by
  cases shapes with
  | whileLoop _ counts =>
    cases counts with
    | false => cases member
    | true => exact List.mem_singleton.mp member ▸ tail
  | doUntil _ => cases member
  | repeatLoop _ => cases member
  | withLoop _ _ =>
    obtain ⟨idiom, isIdiom, rfl⟩ := Option.map_eq_some_iff.mp (Option.mem_toList.mp member)
    exact lt_of_nextBlock? sound (dropIdiom?_spec (Option.ite_none_right_eq_some.mp isIdiom).2).drop

theorem Candidate.Shapes.withLoop_of_idiom (shapes : candidate.Shapes source context shape) {idiom : DropIdiom}
    (isIdiom : candidate.idiom? source context = some idiom) : shape = .withLoop (some idiom.drop) := by
  have isWith := (Option.ite_none_right_eq_some.mp isIdiom).1.1
  cases shapes <;> simp_all

theorem Candidate.Shapes.back
    (shapes : candidate.Shapes source context shape) (isWith : candidate.shape = .withLoop) :
    isEnvironmentTail (context.graph.node candidate.tail) candidate.start = true := by
  cases shapes <;> simp_all

theorem ShapedLoop.Known.body_lt {shaped : ShapedLoop}
    (known : shaped.Known rights source session candidate fragment headTop graph)
    (sound : session.Sound) (top : headTop < session.graph.size) {body : NodeId}
    (isBody : shaped.body = some body) : body < graph.size := by
  rcases known.body body isBody with rfl | ⟨first, block, toFirst, _, _, leads⟩
  · exact known.clips.maintains.grows.lt top
  · exact leads.lt (toFirst.maintains.sound sound.graph)

section

variable (settled : ¬rights.owns) (kept : ¬rights.claims) (ready : candidate.Ready session.graph fragment)
  (permitted : candidate.Permitted rights source session fragment)

include settled kept ready permitted

theorem revises_shapeWhile (isShape : candidate.shape = .whileLoop) :
    Revises rights (shapeWhile fragment candidate headTop) session fun shaped next =>
      shaped.Known rights source session candidate fragment headTop next.graph := by
  have plain : candidate.shape ≠ .withLoop := by simp [isShape]
  have extent : candidate.extent source session.context = _ := Candidate.extent_of_plain plain
  rw [ready.stop] at extent
  refine .of_sound fun sound => ?_
  unfold shapeWhile
  extract_lets tail start stop
  refine .clip_bind (.dropBranch _ _ _) fun cut _ toCut _ clips => .getGraph_bind ?_
  extract_lets blocks continuesAtHead condition first hasIncrementor continues
  have isCondition (block : NodeId) (found : condition = some block) :
      (cut.graph.node block).parent = some fragment ∧ (cut.graph.node block).kind.isBlock = true := by
    have tests := List.find?_some found
    simp only [Bool.and_eq_true, beq_iff_eq] at tests
    obtain ⟨inst, last, _⟩ := Option.bind_eq_some_iff.mp tests.2
    exact ⟨tests.1, Node.isBlock_of_last? last⟩
  have tailStart := (toCut.grows.nodes tail ready.tail).start
  refine .bind (revises_convertJumps_later settled kept sound ready permitted toCut rfl extent.symm
    (fun target member => ?_) fun target member => ?_) ?_
  · exact .inl ((List.mem_singleton.mp member).trans extent.symm)
  · dsimp only [continues] at member
    split at member <;> simp only [List.mem_cons, List.not_mem_nil, or_false] at member
    · exact member.imp id fun same => same.trans tailStart
    · exact .inl member
  rintro _ converted convertedSound _ ⟨converts, isConverted⟩
  refine .getGraph_bind ?_
  extract_lets bodyStart finish
  have toConverted : Clips rights session.graph converted.graph := clips.trans converts
  have onward (next : Session) (toNext : Clips rights converted.graph next.graph)
      (nextSound : next.Sound) : Revises rights (finish ()) next fun shaped final =>
        shaped.Known rights source session candidate fragment headTop final.graph := by
    refine .getContext_bind (.pure ⟨toConverted.trans toNext, .whileLoop isShape hasIncrementor,
      fun body isBody => ?_, fun _ isExit => lt_of_nextBlock? nextSound isExit, extent.symm,
      isConverted.later sound toConverted.maintains.grows toNext.maintains.grows,
      by simp [Candidate.idiom?_of_plain plain]⟩)
    dsimp only at isBody
    split at isBody
    · exact .inl (Option.some.inj isBody).symm
    · split at isBody
      · cases isBody
      · obtain ⟨block, found, leads⟩ := Option.bind_eq_some_iff.mp isBody
        obtain ⟨inside, isBlock⟩ := isCondition block found
        exact .inr ⟨_, block, clips, inside, isBlock, _, converts, toNext, List.mem_of_head? leads⟩
  clear_value finish condition
  split
  · exact .clip_bind (.dropBranch _ _ _) fun next nextSound _ _ toNext => onward next toNext nextSound
  · exact onward converted .refl convertedSound

theorem revises_shapeDoUntil (isShape : candidate.shape = .doUntil) :
    Revises rights (shapeDoUntil fragment candidate headTop) session fun shaped next =>
      shaped.Known rights source session candidate fragment headTop next.graph := by
  have plain : candidate.shape ≠ .withLoop := by simp [isShape]
  have extent : candidate.extent source session.context = _ := Candidate.extent_of_plain plain
  refine .of_sound fun sound => .clip_bind (.dropBranch _ _ _) fun cut _ toCut _ clips => ?_
  refine .getGraph_bind ?_
  extract_lets stop
  have same := toCut.grows.nodes candidate.tail ready.tail
  have isStop : stop = candidate.extent source session.context := same.stop.trans extent.symm
  refine .bind (revises_convertJumps_later settled kept sound ready permitted toCut rfl isStop
    (fun target member => ?_) fun target member => ?_) fun _ next nextSound _ converts => ?_
  · exact .inl ((List.mem_singleton.mp member).trans isStop)
  · exact .inr ((List.mem_singleton.mp member).trans same.start)
  · exact .getContext_bind (.pure ⟨clips.trans converts.1, .doUntil isShape,
      fun _ isBody => .inl (Option.some.inj isBody).symm, fun _ isExit => lt_of_nextBlock? nextSound isExit,
      isStop, converts.2, by simp [Candidate.idiom?_of_plain plain]⟩)

theorem revises_shapeRepeat (isShape : candidate.shape = .repeatLoop) :
    Revises rights (shapeRepeat source fragment candidate headTop) session fun shaped next =>
      shaped.Known rights source session candidate fragment headTop next.graph := by
  have plain : candidate.shape ≠ .withLoop := by simp [isShape]
  have extent : candidate.extent source session.context = _ := Candidate.extent_of_plain plain
  rw [ready.stop] at extent
  refine .of_sound fun sound => ?_
  unfold shapeRepeat
  extract_lets head tail stop typed
  refine .getContext_bind ?_
  extract_lets graph tested discarded
  cases isTested : tested with
  | none => exact .throw rfl
  | some before =>
    dsimp only
    split
    · exact .throw_bind rfl
    · cases isExit : discarded with
      | none => exact .throw rfl
      | some exit =>
        dsimp only
        obtain ⟨isNext, discards⟩ := Option.filter_eq_some_iff.mp isExit
        have exitBound := lt_of_nextBlock? sound isNext
        refine .clip_bind (.single (.halve _ _ fun _ => List.take_prefix _ _)) fun first _ toFirst isFirst one => ?_
        refine .clip_bind (.single (.strip _ _ fun _ => List.take_prefix _ _)) fun second _ toSecond isSecond two => ?_
        -- Neither of the two edits takes anything from the start of the block after the loop.
        have shorter : (second.graph.node exit).instructions <+: (session.graph.node exit).instructions := by
          rw [isSecond, (sameCores_clearSuccessors _ _).instructions]
          refine (instructions_dropInstructions _ exit).trans ?_
          rw [isFirst, (sameCores_dropSecondEdge _ _).instructions]
          exact instructions_dropInstructions _ exit
        have discards (inst : Instruction) (starts : (second.graph.node exit).instructions.head? = some inst) :
            inst.opcode = .popz := by
          obtain ⟨rest, isList⟩ := List.head?_eq_some_iff.mp starts
          obtain ⟨back, isWhole⟩ := shorter
          rw [isList] at isWhole
          rw [← isWhole] at discards
          simpa [startsWithDiscard] using discards
        refine .clip_bind (.single (.shift _ discards)) fun third _ toThird _ three => ?_
        have toThird := (toFirst.trans toSecond).trans toThird
        refine .bind (revises_convertJumps_later settled kept sound ready permitted toThird rfl extent.symm
          (fun target member => ?_) fun target member => ?_) fun _ next nextSound toNext converts => ?_
        · exact .inl ((List.mem_singleton.mp member).trans extent.symm)
        · exact .inr (List.mem_singleton.mp member)
        · refine .getGraph_bind (.pure ⟨((one.trans two).trans three).trans converts.1, .repeatLoop isShape,
            fun id isBody => .inl (Option.some.inj (Option.ite_none_left_eq_some.mp isBody).2).symm, ?_,
            extent.symm, converts.2, by simp [Candidate.idiom?_of_plain plain]⟩)
          rintro _ ⟨⟩
          exact (toThird.trans toNext).lt exitBound

theorem revises_shapeWith (isShape : candidate.shape = .withLoop) :
    Revises rights (shapeWith source fragment candidate headTop) session fun shaped next =>
      shaped.Known rights source session candidate fragment headTop next.graph := by
  refine .of_sound fun sound => ?_
  unfold shapeWith
  extract_lets head tail start
  refine .getContext_bind ?_
  extract_lets graph tailNode idiom stop breaks exit finish
  have isIdiom : idiom = candidate.idiom? source session.context := by
    simp [idiom, tail, Candidate.idiom?, isShape]
  have isStop : stop = candidate.extent source session.context := by
    simp only [stop, isIdiom, Candidate.extent, tailNode, graph, tail]
  have isBreak (target : Nat) (member : target ∈ breaks) :
      target = candidate.extent source session.context ∨
        ∃ idiom, candidate.idiom? source session.context = some idiom ∧
          target = (session.graph.node idiom.drop).start := by
    rw [← isIdiom, ← isStop]
    dsimp only [breaks, stop] at member ⊢
    clear_value idiom stop breaks exit finish
    cases idiom with
    | none => simpa using member
    | some idiom => simpa [or_comm] using member
  have exitBound (id : NodeId) (isExit : exit = some id) : id < session.graph.size := by
    dsimp only [exit] at isExit
    clear_value idiom
    split at isExit
    · exact lt_size_of_isBlock ((sound.blocks id).mp (blockAt?_spec isExit).1)
    · exact lt_of_nextBlock? sound isExit
  have onward (next : Session) (toNext : Edits rights session next)
      (clips : Clips rights session.graph next.graph) (isTail : isEnvironmentTail tailNode start = true)
      (isConverted : candidate.Converted source session fragment next.graph)
      (cleared : ∀ found, idiom = some found → (next.graph.node found.drop).instructions = []) :
      Revises rights (finish ()) next fun shaped final =>
        shaped.Known rights source session candidate fragment headTop final.graph := by
    refine .pure ⟨clips, ?_, fun id isBody => ?_, fun id isExit => toNext.lt (exitBound id isExit), isStop,
      isConverted, isIdiom ▸ cleared⟩
    · rw [isIdiom]
      exact .withLoop isShape isTail
    · exact .inl (Option.some.inj (Option.ite_none_left_eq_some.mp isBody).2).symm
  clear_value idiom stop breaks exit finish
  split
  · exact .throw rfl
  · next before isBefore =>
    extract_lets convert leave check
    have converts (next : Session) (toNext : Edits rights session next)
        (clips : Clips rights session.graph next.graph)
        (isTail : isEnvironmentTail tailNode start = true) :
        Revises rights (convert ()) next fun shaped final =>
          shaped.Known rights source session candidate fragment headTop final.graph := by
      refine .clip_bind (.dropSecondBranch _ _ _) fun first _ toFirst _ one => ?_
      refine .clip_bind (.dropBranch _ _ _) fun second _ toSecond _ two => ?_
      have toSecond := (toNext.trans toFirst).trans toSecond
      refine .bind (revises_convertJumps_later settled kept sound ready permitted toSecond rfl isStop
        isBreak fun target member => .inr (List.mem_singleton.mp member)) ?_
      rintro _ third _ toThird ⟨three, isConverted⟩
      have toThird := toSecond.trans toThird
      have clips : Clips rights session.graph third.graph := ((clips.trans one).trans two).trans three
      cases idiom with
      | some idiom =>
        refine .clip_bind (.clearDrop _ _)
          fun next _ toNext isNext four => onward next (toThird.trans toNext) (clips.trans four) isTail
            (isConverted.later sound clips.maintains.grows four.maintains.grows) ?_
        rintro _ ⟨⟩
        rw [isNext]
        exact instructions_clearDrop _ _
      | none => exact onward third toThird clips isTail isConverted fun _ => nofun
    clear_value convert
    split
    · exact .throw_bind rfl
    · next checked =>
      have isTail : isEnvironmentTail tailNode start = true := by simpa using checked
      refine .getClaims_bind ?_
      split
      · exact .throw_bind rfl
      · cases idiom with
        | some idiom =>
          exact .clip_bind (.dropBranch _ _ _) fun next _ toNext _ clips => converts next toNext clips isTail
        | none => exact converts session .refl .refl isTail

theorem revises_shapeLoop :
    Revises rights (shapeLoop source fragment candidate headTop) session fun shaped next =>
      shaped.Known rights source session candidate fragment headTop next.graph := by
  unfold shapeLoop
  cases isShape : candidate.shape with
  | whileLoop => exact revises_shapeWhile settled kept ready permitted isShape
  | doUntil => exact revises_shapeDoUntil settled kept ready permitted isShape
  | repeatLoop => exact revises_shapeRepeat settled kept ready permitted isShape
  | withLoop => exact revises_shapeWith settled kept ready permitted isShape

end

end

structure Candidate.Placed (candidate : Candidate) (rights : Rights) (source : Source) (session first next : Session)
    (fragment loop : NodeId) : Prop where
  isLoop : ∃ parts, (next.graph.node loop).kind = .loop parts
  range : (next.graph.node loop).range = ⟨candidate.start, candidate.extent source session.context⟩
  parents : ∀ id < first.graph.size, (first.graph.node id).kind ≠ .sentinel .empty →
    (next.graph.node id).parent = if (first.graph.node id).parent = some fragment ∧
      (first.graph.node id).startsWithin candidate.start (candidate.extent source session.context) = true
    then some loop else (first.graph.node id).parent
  drop : ¬rights.cuts → ¬rights.reshapes → ∀ idiom, candidate.idiom? source session.context = some idiom →
    ∃ ref, (next.graph.node loop).kind.breakBlock? = some ref ∧
      next.graph.Stands ref (session.graph.node idiom.drop).start

/-- A loop gets its shape first. Then it is put in the graph, and takes in what is on the level of its
fragment and in its range. -/
structure Candidate.Built (candidate : Candidate) (rights : Rights) (source : Source) (session first next : Session)
    (fragment loop : NodeId) : Prop extends candidate.Placed rights source session first next fragment loop where
  clips : Clips rights session.graph first.graph
  shaping : Edits rights session first
  placing : Edits rights.unmarked first next
  converted : candidate.Converted source session fragment first.graph
  back : candidate.shape = .withLoop →
    isEnvironmentTail (session.graph.node candidate.tail) candidate.start = true

theorem revises_buildLoop {candidate : Candidate} (free : rights.encloses) (settled : ¬rights.owns)
    (kept : ¬rights.claims) (isFragment : ∃ parts, (session.graph.node fragment).kind = .fragment parts)
    (head : candidate.head < session.graph.size) (tail : candidate.tail < session.graph.size)
    (stop : (session.graph.node candidate.tail).stop = candidate.stop)
    (nested : rights.reshapes ∨ session.graph.Below (some fragment) candidate.head)
    (permitted : candidate.Permitted rights source session fragment) :
    Revises rights (buildLoop source fragment candidate) session fun _ next =>
      ∃ first loop, candidate.Built rights source session first next fragment loop := by
  refine .of_sound fun sound => ?_
  have owner : session.graph.Owner fragment := by
    obtain ⟨_, isKind⟩ := isFragment
    exact .of_kind isKind rfl
  unfold buildLoop
  extract_lets level
  refine .getGraph_bind ?_
  extract_lets headTop tailTop
  have headBound : headTop < session.graph.size := sound.graph.climb_getD_lt level head
  have tailBound : tailTop < session.graph.size := sound.graph.climb_getD_lt level tail
  refine .bind (revises_shapeLoop settled kept ⟨owner, tail, stop⟩ permitted)
    fun shaped first _ toFirst known => ?_
  refine .imp (.mono rights.unmarked_within (?_ : Revises rights.unmarked _ first fun _ next =>
    ∃ loop, candidate.Placed rights source session first next fragment loop)) ?_
  rotate_left
  · rintro _ next ⟨placing, loop, placed⟩
    exact ⟨first, loop, placed, known.clips, toFirst, placing, known.converted, known.shape.back⟩
  refine .addNode_bind rfl (List.forall_mem_nil _)
    (fun _ same => absurd same (by simp)) fun after second _ toSecond isAfter afterNode isSecond => ?_
  have toSecond' := toFirst.trans (toSecond.mono rights.unmarked_within)
  refine .bind (.addNode rfl ?_ ?_) ?_
  · intro ref member
    simp only [Kind.references, List.mem_cons, List.mem_append, Option.mem_toList] at member
    rcases member with rfl | rfl | rfl | body | shape
    · exact toSecond'.lt headBound
    · exact toSecond'.lt tailBound
    · exact isAfter
    · exact toSecond.lt (known.body_lt sound headBound body)
    · exact toSecond'.lt (known.shape.lt sound tail shape)
  · exact fun id same => (Option.some.inj same : fragment = id) ▸ toSecond'.owner owner
  rintro loop third thirdSound toThird ⟨isNew, isThird⟩
  have isNode : third.graph.node loop = ⟨candidate.start, shaped.stop, [], [], level,
      .loop ⟨shaped.shape, headTop, tailTop, shaped.body, after⟩⟩ := by
    rw [isThird, isNew]
    exact (node_addNode _ _ _ _).trans (if_pos rfl)
  have isOwner : third.graph.Owner loop := .of_kind (congrArg Node.kind isNode) rfl
  have onLevel : (third.graph.node loop).parent = level := congrArg Node.parent isNode
  have stillEmpty := toThird.sentinel (congrArg Node.kind afterNode) isAfter
  have toThird' := toSecond.trans toThird
  have parents {id : NodeId} (bound : id < first.graph.size) :
      (third.graph.node id).parent = (first.graph.node id).parent := by
    have grown := toSecond.lt bound
    rw [isThird]
    refine (parent_addNode _ _ _ _ grown).trans ?_
    rw [isSecond]
    exact parent_addNode _ _ _ _ bound
  have toFragment {next : Session} (edits : Edits rights.unmarked.staying third next) :
      (∃ parts, (next.graph.node fragment).kind = .fragment parts) ↔
        ∃ parts, (session.graph.node fragment).kind = .fragment parts := by
    have toThird := toSecond'.trans (toThird.mono rights.unmarked_within)
    exact ((toThird.grows.trans edits.grows).nodes fragment owner.lt).kind.fragment_iff
  refine .modifyGraph_staying (GraphEdit.place after loop stillEmpty isOwner).one fun placed _ toPlaced isPlaced => ?_
  have replaces : rights.staying.reshapes ∨ ∀ id, (placed.graph.node headTop).parent = some id →
      placed.graph.Replaces id headTop loop := by
    refine nested.imp_right fun below id isParent parts isLoop => ?_
    -- What is at the head is on the level of the fragment, which is no loop.
    obtain ⟨top, climbs⟩ := below.climb sound.graph head
    have isTop : headTop = top := by simp [headTop, level, climbs]
    have atHead : (third.graph.node headTop).parent = level :=
      (parents (toFirst.lt headBound)).trans ((known.clips.parent_eq headBound).trans (isTop ▸ parent_climb climbs))
    have apart : after ≠ headTop := by
      intro same
      rw [← same] at atHead
      have free : (third.graph.node after).parent = none := by
        rw [isThird]
        exact (parent_addNode _ _ _ _ isAfter).trans (congrArg Node.parent afterNode)
      exact absurd (free.symm.trans atHead) (by simp [level])
    rw [isPlaced, parent_setParent _ apart] at isParent
    obtain rfl := Option.some.inj (atHead.symm.trans isParent)
    obtain ⟨_, isKind⟩ := (toFragment toPlaced).mpr isFragment
    cases isKind.symm.trans isLoop
  refine .modifyGraph_staying (edits_substitute (toPlaced.lt isOwner.lt) replaces) fun moved movedSound toMoved _ => ?_
  have toMoved := toPlaced.trans toMoved
  refine .getGraph_bind ?_
  extract_lets finish
  have onward (next : Session) (edits : Edits rights.unmarked.staying third next) :
      Revises rights.unmarked (finish ()) next fun _ final =>
        ∃ loop, candidate.Placed rights source session first final fragment loop := by
    have grounded : next.graph.Grounded loop level := fun _ _ => by
      obtain ⟨parts, isKind⟩ := (toFragment edits).mpr isFragment
      exact ⟨fragment, parts, rfl, isKind⟩
    refine .bind (.enclose free (edits.encloser (.of_kind (congrArg Node.kind isNode) rfl rfl))
      ((edits.parent_of_staying id isOwner).trans onLevel) (.inr grounded)) ?_
    rintro _ closed _ toClosed ⟨isClosed, -⟩
    have toClosed := (edits.mono rights.unmarked.staying_within).trans toClosed
    refine .imp (.announce (toClosed.owner isOwner)) fun _ final same => ⟨loop, ?_⟩
    have becomes := toClosed.grows.nodes loop isOwner.lt
    rw [isNode] at becomes
    constructor
    · rw [same]
      exact becomes.kind.loop_iff.mpr ⟨_, rfl⟩
    · rw [same, Node.range, becomes.start, becomes.stop, ← known.stop]
    · intro id bound proper
      have start := ((toThird'.grows.trans edits.grows).nodes id bound).start
      have still : (next.graph.node id).parent = (first.graph.node id).parent := by
        refine (edits.parent_eq ?_ (toThird'.lt bound) (toThird'.proper bound proper) fun owns => ?_).trans
          (parents bound)
        · exact fun encloses => encloses
        · exact absurd owns settled
      have apart : id ≠ loop := fun here => Nat.lt_irrefl _ (isNew ▸ here ▸ toSecond.lt bound)
      have inside := edits.lt (toThird'.lt bound)
      rw [same, isClosed]
      refine (congrArg Node.parent (node_absorb loop level candidate.start shaped.stop)).trans ?_
      rw [still, Node.startsWithin, Node.startsWithin, start, known.stop, apply_ite Node.parent]
      simp only [inside, apart, ne_eq, not_false_eq_true, true_and, still, level]
    · intro whole shaped idiom isIdiom
      rw [same]
      have shape := known.shape.withLoop_of_idiom isIdiom
      have bound := lt_of_nextBlock? sound (dropIdiom?_spec (Option.ite_none_right_eq_some.mp isIdiom).2).drop
      have stands : third.graph.Stands idiom.drop (session.graph.node idiom.drop).start :=
        Stands.later (.inl ⟨known.drop idiom isIdiom, (toFirst.grows.nodes _ bound).start⟩) toThird'.grows
          (toFirst.lt bound)
      refine toClosed.stands settled whole shaped thirdSound ?_ stands
      rw [isNode, shape]
      rfl
  clear_value finish
  split
  · next exit isExit =>
    obtain ⟨block, isBlock, climbs⟩ := Option.bind_eq_some_iff.mp isExit
    have bound := toMoved.lt (toThird.lt (toSecond.lt (known.exit block isBlock)))
    exact .modifyGraph_staying (edits_addEdge (toMoved.lt isOwner.lt)
      (movedSound.graph.climb_lt bound climbs)) fun next _ edits _ => onward next (toMoved.trans edits)
  · exact onward moved toMoved

end Structuring.Recovery
