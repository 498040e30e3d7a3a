import Mathlib.Data.List.Forall2
import Mathlib.Data.List.Nodup
import Structuring.Proofs.Landing
import Structuring.Proofs.Provenance
import Structuring.Recovery.Block

/-! Blocks and fragments as edits.

Blocks hold what the cuts of the code leave between them. Fragments take blocks over and cut the
edges that lead out of a nested body.
-/

namespace Structuring.Recovery

open Bytecode FlowGraph

variable {rights : Rights} {session next : Session} {source : Source} {graph : FlowGraph}
  {block id current fragment owner root : NodeId} {stack blocks done : List NodeId}
  {slices : List (AddressRange × List Instruction)} {previous : Option NodeId} {jump : Instruction}

/-! Blocks -/

theorem jumpTarget?_of_fallsThrough {node : Node} (falls : fallsThrough node = true) :
    node.jumpTarget? = none := by
  refine Option.eq_none_iff_forall_ne_some.mpr fun target jumps => ?_
  obtain ⟨inst, last, goes⟩ := Option.bind_eq_some_iff.mp jumps
  obtain ⟨isJump, goes⟩ := Option.ite_none_right_eq_some.mp goes
  simp [fallsThrough, last, Instruction.isJump, Instruction.isBranch, eq_of_beq isJump, goes] at falls

theorem target?_of_jumpTarget? {node : Node} {target : Nat} (jumps : node.jumpTarget? = some target) :
    node.target? = some target := by
  obtain ⟨inst, last, goes⟩ := Option.bind_eq_some_iff.mp jumps
  exact Option.bind_eq_some_iff.mpr ⟨inst, last, (Option.ite_none_right_eq_some.mp goes).2⟩

theorem revises_linkBlock {next : Option NodeId}
    (known : ∀ block ∈ blocks, (session.graph.node block).kind.isBlock = true) (bound : id < session.graph.size)
    (nextBound : ∀ other, next = some other → other < session.graph.size) :
    Revises rights (linkBlock blocks id next) session fun _ final =>
      session.graph.JumpsLand → final.graph.JumpsLand := by
  refine .of_sound fun sound => .getGraph_bind ?_
  extract_lets node branch
  have onward (later : Session) (edits : Edits rights session later)
      (same : SameCores session.graph later.graph)
      (lands : session.graph.JumpsLand → later.graph.JumpsLand) :
      Revises rights (branch ()) later fun _ final =>
        session.graph.JumpsLand → final.graph.JumpsLand := by
    dsimp only [branch]
    split
    · exact .pure lands
    · next target isTarget =>
      refine .getGraph_bind ?_
      split
      · next destination found =>
        have listed : destination ∈ blocks := List.mem_of_find?_eq_some found
        have starts : (later.graph.node destination).start = target := by
          simpa using List.find?_some found
        have isBlock := edits.isBlock (known destination listed)
        refine .imp (.modifyGraph (edits_addEdge (edits.lt bound) (lt_size_of_isBlock isBlock)))
          fun _ final isFinal first => ?_
        rw [isFinal]
        refine (lands first).addEdge fun address jumps => ⟨isBlock, starts.trans ?_⟩
        rw [Node.jumpTarget?_congr (same.instructions id)] at jumps
        exact Option.some.inj (isTarget.symm.trans (target?_of_jumpTarget? jumps))
      · exact .throw rfl
  cases next with
  | none => exact onward session .refl (.refl _) fun lands => lands
  | some other =>
    dsimp only
    split
    · next falls =>
      refine .modifyGraph_bind (edits_addEdge bound (nextBound other rfl)) fun later _ edits isLater => ?_
      refine onward later edits (isLater ▸ sameCores_addEdge id other) fun lands => ?_
      rw [isLater]
      refine lands.addEdge fun address jumps => ?_
      exact absurd ((jumpTarget?_of_fallsThrough falls).symm.trans jumps) (by simp)
    · exact onward session .refl (.refl _) fun lands => lands

theorem revises_linkBlocks (ids : List NodeId)
    (known : ∀ block ∈ blocks, (session.graph.node block).kind.isBlock = true)
    (bounds : ∀ id ∈ ids, id < session.graph.size) :
    Revises rights (linkBlocks blocks ids) session fun _ final =>
      session.graph.JumpsLand → final.graph.JumpsLand := by
  induction ids generalizing session with
  | nil => exact .pure fun lands => lands
  | cons id rest ih =>
    refine .bind (revises_linkBlock known (bounds id (.head _)) fun other first => ?_) ?_
    · exact bounds other (.tail _ (List.mem_of_head? first))
    · intro _ next _ edits lands
      refine .imp (ih (fun block member => edits.isBlock (known block member))
        fun other member => edits.lt (bounds other (.tail _ member))) fun _ final more first => ?_
      exact more (lands first)

structure IsCut (graph : FlowGraph) (block : NodeId) (slice : AddressRange × List Instruction) :
    Prop where
  isBlock : (graph.node block).kind.isBlock = true
  range : (graph.node block).range = slice.1
  shorter : Shortens slice.2 (graph.node block).instructions

theorem IsCut.later {next : FlowGraph} {slice : AddressRange × List Instruction}
    (cut : IsCut graph block slice) (grows : Grows graph next) : IsCut next block slice := by
  have becomes := grows.nodes block (lt_size_of_isBlock cut.isBlock)
  refine ⟨becomes.kind.isBlock.trans cut.isBlock, ?_, cut.shorter.trans becomes.instructions⟩
  rw [← cut.range, Node.range, Node.range, becomes.start, becomes.stop]

/-- The blocks of a context are cut from slices of code, one from each in order. -/
def CutFrom (slices : List (AddressRange × List Instruction)) (context : Context) : Prop :=
  List.Forall₂ (IsCut context.graph) context.blocks slices

theorem CutFrom.later (cut : CutFrom slices session.context) (edits : Edits rights session next)
    (whole : ¬rights.cuts) : CutFrom slices next.context := by
  rw [CutFrom, edits.blocks_eq whole]
  exact cut.imp fun _ _ isCut => isCut.later edits.grows

theorem CutFrom.slice (cut : CutFrom slices session.context) (sound : session.Sound)
    (isBlock : (session.graph.node block).kind.isBlock = true) :
    ∃ slice ∈ slices, IsCut session.graph block slice := by
  obtain ⟨index, bound, rfl⟩ := List.getElem_of_mem ((sound.blocks block).mpr isBlock)
  have same := cut.length_eq
  exact ⟨slices[index], List.getElem_mem _, cut.get bound (same ▸ bound)⟩

theorem revises_addBlocks (free : rights.cuts) (slices : List (AddressRange × List Instruction))
    (index : Nat) {made : List (AddressRange × List Instruction)} (before : CutFrom made session.context) :
    Revises rights (addBlocks index slices) session fun _ next =>
      CutFrom (made ++ slices) next.context ∧ (session.graph.JumpsLand → next.graph.JumpsLand) := by
  induction slices generalizing session index made with
  | nil => exact .pure ⟨by simpa using before, fun lands => lands⟩
  | cons slice rest ih =>
    refine .addBlock_bind free fun next _ toNext graph blocks => ?_
    have one : IsCut next.graph session.graph.size slice := by
      rw [graph]
      constructor
      · simp [node_addNode, Kind.isBlock]
      · simp [node_addNode, Node.range]
      · simp only [node_addNode]
        exact .refl _
    have cut : CutFrom (made ++ [slice]) next.context := by
      rw [CutFrom, blocks]
      exact List.rel_append (before.imp fun _ _ isCut => isCut.later toNext.grows) (.cons one .nil)
    refine .imp (ih (index + 1) cut) fun _ final done => ⟨?_, fun lands => done.2 ?_⟩
    · simpa only [List.append_assoc, List.singleton_append] using done.1
    · exact graph ▸ lands.addNode _ _ _

theorem cutFailure?_isExpected {code : Code} {failure : Failure}
    (found : cutFailure? code = some failure) : failure.isExpected = true := by
  rcases Option.or_eq_some_iff.mp found with target | ⟨_, child⟩
  · obtain ⟨inst, _, found⟩ := List.exists_of_findSome?_eq_some target
    obtain ⟨target, _, found⟩ := Option.bind_eq_some_iff.mp found
    split at found
    · cases found
    · cases found
      rfl
  · obtain ⟨entry, _, found⟩ := List.exists_of_findSome?_eq_some child
    unfold childFailure? at found
    split at found
    · cases found
    · cases found
      rfl

/-- The blocks of an entry that had none are the slices of its code, and jumps land. -/
theorem revises_buildBlocks (free : rights.cuts) :
    Revises rights (buildBlocks source) session fun _ next =>
      (session.blocks = [] → CutFrom (sliceAt (cutPoints source.code) source.code.instructions) next.context) ∧
      (session.graph.JumpsLand → next.graph.JumpsLand) := by
  refine .getContext_bind ?_
  split
  · next present =>
    refine .pure ⟨fun empty => absurd present ?_, fun lands => lands⟩
    simp [empty]
  · next absent =>
    have none : session.blocks = [] := by simpa using absent
    have before : CutFrom [] session.context := by
      rw [CutFrom, none]
      exact .nil
    extract_lets onward
    have build : Revises rights (onward ()) session fun _ next =>
        CutFrom (sliceAt (cutPoints source.code) source.code.instructions) next.context ∧
          (session.graph.JumpsLand → next.graph.JumpsLand) := by
      refine .bind (revises_addBlocks free _ 0 before) ?_
      rintro _ next sound _ ⟨cut, lands⟩
      refine .getContext_bind ?_
      have areBlocks : ∀ block ∈ next.blocks, (next.graph.node block).kind.isBlock = true :=
        fun block member => (sound.blocks block).mp member
      have links : Revises rights.settled (linkBlocks next.blocks next.blocks) next
          _ := revises_linkBlocks _ areBlocks fun block member =>
            lt_size_of_isBlock (areBlocks block member)
      refine .bind_within rights.settled_within links fun _ linked _ toLinked linkedLands => ?_
      have cut := cut.later toLinked id
      exact .tell_bind fun final _ _ same => .pure ⟨same ▸ cut, fun first => same ▸ linkedLands (lands first)⟩
    split
    · next failure found =>
      exact .throw_bind (cutFailure?_isExpected found)
    · exact build.imp fun _ _ done => ⟨fun _ => done.1, done.2⟩

/-! Fragments -/

theorem revises_openFragment {previous : NodeId} {child : ChildEntry} {stop : Nat}
    (free : rights.founds) (owner : session.graph.Owner current) (bound : previous < session.graph.size) :
    Revises rights (openFragment current previous child stop) session fun id next =>
      next.graph.Owner id ∧
        (BareBut .b (session.graph.node previous).instructions →
          session.graph.JumpsLand → next.graph.JumpsLand) := by
  refine .of_sound fun sound => .getGraph_bind ?_
  extract_lets after
  have afterBound : ∀ id, after = some id → id < session.graph.size := fun id first =>
    sound.graph.edges.target_lt (List.mem_of_head? first)
  refine .modifyGraph_bind (edits_dropBranch _ _ _) fun cut _ toCut isCut => ?_
  refine .bind (.addFragment free ?_) fun fragment made _ toMade ⟨⟨parts, isFragment⟩, isMade⟩ => ?_
  · rintro _ ⟨⟩
    exact toCut.owner owner
  have isOwner : made.graph.Owner fragment := .of_kind isFragment rfl
  refine .modifyGraph_bind (edits_addEdge (toMade.lt (toCut.lt bound)) isOwner.lt)
    fun linked linkedSound toLinked isLinked => ?_
  have linkedLands (only : BareBut .b (session.graph.node previous).instructions)
      (lands : session.graph.JumpsLand) : linked.graph.JumpsLand := by
    have bare : Bare (cut.graph.node previous).instructions := isCut ▸ bare_dropBranch only
    have madeLands : made.graph.JumpsLand := by
      rw [isMade, Session.withGraph, isCut]
      exact (lands.dropBranch previous .b).addNode _ _ _
    rw [isLinked]
    refine madeLands.addEdge fun address jumps => ?_
    rw [Node.jumpTarget?_of_bare (toMade.grows.bare bare (toCut.lt bound))] at jumps
    cases jumps
  extract_lets finish
  have onward (next : Session) (edits : Edits rights linked next)
      (lands : linked.graph.JumpsLand → next.graph.JumpsLand) :
      Revises rights (finish ()) next fun id final => final.graph.Owner id ∧
        (BareBut .b (session.graph.node previous).instructions →
          session.graph.JumpsLand → final.graph.JumpsLand) := by
    refine .tell_bind fun told toldSound toTold same => ?_
    have stillOwner := toTold.owner (edits.owner (toLinked.owner isOwner))
    refine .bind (.modifyFragments free rfl (fun _ => id) toldSound.root ?_) fun _ final _ toFinal isFinal => ?_
    · exact List.forall_mem_append.mpr ⟨toldSound.fragments, List.forall_mem_singleton.mpr stillOwner⟩
    · refine .pure ⟨toFinal.owner stillOwner, fun only first => ?_⟩
      rw [isFinal, same]
      exact lands (linkedLands only first)
  cases isAfter : after with
  | none => exact onward linked .refl fun lands => lands
  | some id =>
    have edge : id < linked.graph.size := toLinked.lt (toMade.lt (toCut.lt (afterBound id isAfter)))
    refine .modifyGraph_bind (edits_addEdge (toLinked.lt isOwner.lt) edge) fun next _ edits isNext => ?_
    refine onward next edits fun lands => isNext ▸ lands.addEdge fun address jumps => ?_
    -- A fragment holds no instructions, so no jump either.
    have held : (linked.graph.node fragment).instructions = [] := by
      rw [isLinked, (sameCores_addEdge previous fragment).instructions, Node.instructions, isFragment]
    rw [Node.jumpTarget?_of_bare (held ▸ List.forall_mem_nil _)] at jumps
    cases jumps

theorem mem_of_mem_closeFragments {address : Nat}
    (member : id ∈ closeFragments graph address stack) : id ∈ stack := by
  fun_induction closeFragments graph address stack with
  | case1 inner outer rest closed ih => exact .tail _ (ih member)
  | case2 inner outer rest _ => exact member
  | case3 stack _ => exact member

/-- Fragments are opened in the place of jumps, and where the others land stays the same. -/
theorem revises_fragmentsAt (free : rights.founds)
    (owner : session.graph.Owner current) (owners : ∀ id ∈ stack, session.graph.Owner id)
    (bound : ∀ id, previous = some id → id < session.graph.size) :
    Revises rights (fragmentsAt source previous stack current block) session fun stack next =>
      (∀ id ∈ stack, next.graph.Owner id) ∧
        ((∀ id, Bare (session.graph.node id).instructions.dropLast) →
          session.graph.JumpsLand → next.graph.JumpsLand) := by
  refine .getGraph_bind ?_
  extract_lets start skip
  cases childAt? source.code start with
  | none => exact .pure ⟨owners, fun _ lands => lands⟩
  | some child =>
    dsimp only
    split
    · cases isSkip : skip with
      | none => exact .throw rfl
      | some found =>
        obtain ⟨before, isPrevious, same⟩ := Option.bind_eq_some_iff.mp isSkip
        obtain ⟨target, isTarget, rfl⟩ := Option.map_eq_some_iff.mp same
        refine .bind (revises_openFragment free owner (bound before isPrevious)) ?_
        rintro fragment next _ edits ⟨isOwner, lands⟩
        refine .pure ⟨fun id member => ?_, fun init => lands ⟨init before, fun inst last _ => ?_⟩⟩
        · rcases List.mem_cons.mp member with rfl | old
          · exact isOwner
          · exact edits.owner (owners id old)
        · obtain ⟨jump, isLast, goes⟩ := Option.bind_eq_some_iff.mp (Option.filter_eq_some_iff.mp isTarget).1
          obtain rfl : jump = inst := Option.some.inj (isLast.symm.trans last)
          exact Instruction.opcode_eq goes
    · refine .tell_bind fun next _ edits same => .pure ⟨fun id member => ?_, fun _ lands => ?_⟩
      · exact edits.owner (owners id member)
      · exact same ▸ lands

structure Assigned (graph : FlowGraph) (done : List NodeId) : Prop where
  lands : graph.JumpsLand
  init : ∀ id, Bare (graph.node id).instructions.dropLast
  listed : ∀ fragment, (fragmentBlocks graph fragment).Sublist done
  level : ∀ fragment, ∀ block ∈ fragmentBlocks graph fragment, (graph.node block).parent = some fragment

theorem Edits.bare_dropLast (edits : Edits rights session next)
    (whole : ¬rights.cuts) (init : ∀ id, Bare (session.graph.node id).instructions.dropLast)
    (id : NodeId) : Bare (next.graph.node id).instructions.dropLast := by
  by_cases inside : id < session.graph.size
  · exact (init id).dropLast (edits.grows.nodes id inside).instructions
  · rw [edits.instructions_eq_nil whole (Nat.le_of_not_lt inside)]
    exact List.forall_mem_nil _

theorem Edits.level (edits : Edits rights session next) (settled : ¬rights.owns)
    (still : ¬rights.encloses) (isBlock : (session.graph.node block).kind.isBlock = true)
    (level : (session.graph.node block).parent = some fragment) :
    (next.graph.node block).parent = some fragment := by
  refine Eq.trans ?_ level
  refine edits.parent_eq still (lt_size_of_isBlock isBlock) (fun empty => ?_) fun free =>
    absurd free settled
  rw [empty] at isBlock
  exact Bool.false_ne_true isBlock

theorem Assigned.later (assigned : Assigned session.graph done)
    (edits : Edits rights session next) (whole : ¬rights.cuts) (settled : ¬rights.owns)
    (still : ¬rights.encloses) (areBlocks : ∀ id ∈ done, (session.graph.node id).kind.isBlock = true)
    (lands : next.graph.JumpsLand) : Assigned next.graph done := by
  have sameBlocks := edits.fragmentBlocks_eq settled
  refine ⟨lands, edits.bare_dropLast whole assigned.init, fun fragment => ?_, fun fragment block member => ?_⟩
  · exact sameBlocks fragment ▸ assigned.listed fragment
  · rw [sameBlocks] at member
    exact edits.level settled still (areBlocks block ((assigned.listed fragment).subset member))
      (assigned.level fragment block member)

theorem fragmentBlocks_ownBlock (graph : FlowGraph) (owner block fragment : NodeId) :
    fragmentBlocks (ownBlock graph owner block) fragment = fragmentBlocks graph fragment ∨
      fragment = owner ∧ fragmentBlocks (ownBlock graph owner block) fragment =
        fragmentBlocks graph fragment ++ [block] := by
  have placed : fragmentBlocks (graph.setParent block (some owner)) fragment =
      fragmentBlocks graph fragment :=
    fragmentBlocks_modify ({ · with parent := some owner }) (fun _ => rfl) fragment
  rw [← placed, ownBlock]
  generalize graph.setParent block (some owner) = next
  rw [FlowGraph.fragmentBlocks_eq, FlowGraph.fragmentBlocks_eq, mapKind, node_modify]
  split
  · next here =>
    rw [← here.1]
    cases (next.node owner).kind with
    | fragment parts => exact .inr ⟨rfl, rfl⟩
    | _ => exact .inl rfl
  · exact .inl rfl

theorem parent_ownBlock_self (bound : block < graph.size) :
    ((ownBlock graph owner block).node block).parent = some owner := by
  rw [ownBlock, parent_mapKind, setParent, node_modify, if_pos ⟨rfl, bound⟩]

theorem Assigned.own (assigned : Assigned graph done)
    (structured : graph.Owner owner) (bound : block < graph.size) (fresh : block ∉ done) :
    Assigned (ownBlock graph owner block) (done ++ [block]) := by
  refine ⟨assigned.lands.ownBlock structured bound, fun id => ?_, fun fragment => ?_,
    fun fragment other member => ?_⟩
  · rw [instructions_ownBlock]
    exact assigned.init id
  · rcases fragmentBlocks_ownBlock graph owner block fragment with same | ⟨_, more⟩
    · exact same ▸ (assigned.listed fragment).trans (List.sublist_append_left done [block])
    · exact more ▸ (assigned.listed fragment).append (.refl _)
  · have old (among : other ∈ fragmentBlocks graph fragment) :
        ((ownBlock graph owner block).node other).parent = some fragment := by
      have apart : block ≠ other := by
        rintro rfl
        exact fresh ((assigned.listed fragment).subset among)
      rw [ownBlock, parent_mapKind, parent_setParent _ apart]
      exact assigned.level fragment other among
    rcases fragmentBlocks_ownBlock graph owner block fragment with same | ⟨rfl, more⟩
    · exact old (same ▸ member)
    · rcases List.mem_append.mp (more ▸ member) with among | new
      · exact old among
      · rw [List.mem_singleton.mp new]
        exact parent_ownBlock_self bound

def assigningRights : Rights := { Rights.none with founds := True, owns := True }

theorem revises_assignBlocks (blocks : List NodeId)
    (isRoot : session.graph.Owner root) (owners : ∀ id ∈ stack, session.graph.Owner id)
    (bound : ∀ id, previous = some id → id < session.graph.size)
    (areBlocks : ∀ id ∈ blocks, (session.graph.node id).kind.isBlock = true) :
    Revises assigningRights (assignBlocks source root previous stack blocks) session fun _ next =>
      ∀ done, (∀ id ∈ done, (session.graph.node id).kind.isBlock = true) →
        (done ++ blocks).Nodup → Assigned session.graph done → Assigned next.graph (done ++ blocks) := by
  induction blocks generalizing session previous stack with
  | nil => exact .pure fun done _ _ assigned => by simpa using assigned
  | cons block rest ih =>
    refine .getGraph_bind ?_
    extract_lets closed
    have closedOwners : ∀ id ∈ closed, session.graph.Owner id := fun id member =>
      owners id (mem_of_mem_closeFragments member)
    have top {next : Session} {stack : List NodeId} (isRoot : next.graph.Owner root)
        (owners : ∀ id ∈ stack, next.graph.Owner id) :
        next.graph.Owner (stack.head?.getD root) := by
      cases stack with
      | nil => exact isRoot
      | cons first _ => exact owners first (.head _)
    -- Opening a fragment gives it no block yet.
    have within : Rights.Within { Rights.none with founds := True } assigningRights :=
      ⟨fun _ _ _ => id, id, id, id, fun _ => trivial, id, id⟩
    refine .bind_within within (revises_fragmentsAt trivial (top isRoot closedOwners) closedOwners bound) ?_
    rintro stack opened _ toOpened ⟨owners, lands⟩
    have isRoot := toOpened.owner isRoot
    have isBlock : ∀ id ∈ block :: rest, (opened.graph.node id).kind.isBlock = true :=
      fun id member => toOpened.isBlock (areBlocks id member)
    have structured := top isRoot owners
    have inside := lt_size_of_isBlock (isBlock block (.head _))
    refine .modifyGraph_bind (GraphEdit.own _ block trivial structured
      (isBlock block (.head _))).one fun owned _ toOwned isOwned => ?_
    refine .imp (ih (toOwned.owner isRoot) (fun id member => toOwned.owner (owners id member)) ?_ ?_) ?_
    · rintro _ ⟨⟩
      exact toOwned.lt inside
    · exact fun id member => toOwned.isBlock (isBlock id (.tail _ member))
    · intro _ final done before doneBlocks nodup assigned
      have opens := assigned.later toOpened id id id doneBlocks (lands assigned.init assigned.lands)
      rw [List.append_cons] at nodup ⊢
      have fresh : block ∉ before := by
        have apart := (List.nodup_append.mp (List.nodup_append.mp nodup).1).2.2
        exact fun member => apart block member block (by simp) rfl
      refine done _ (fun id member => toOwned.isBlock (toOpened.isBlock ?_)) nodup
        (isOwned ▸ opens.own structured inside fresh)
      rcases List.mem_append.mp member with old | new
      · exact doneBlocks id old
      · exact List.mem_singleton.mp new ▸ areBlocks block (.head _)

/-! Confined fragments -/

structure Levelled (graph : FlowGraph) : Prop where
  keeps : graph.JumpsKeepLevel
  init : ∀ id, Bare (graph.node id).instructions.dropLast
  level : ∀ fragment, ∀ block ∈ fragmentBlocks graph fragment,
    (graph.node block).kind.isBlock = true ∧ (graph.node block).parent = some fragment
  apart : ∀ first second, (graph.node first).kind.isBlock = true →
    (graph.node second).kind.isBlock = true →
    (graph.node first).start = (graph.node second).start → first = second

def LeavesFunction (graph : FlowGraph) (block : NodeId) (jump : Instruction) : Prop :=
  ∃ fragment target, block ∈ fragmentBlocks graph fragment ∧ jump.targetOf? .b = some target ∧
    ∀ other ∈ fragmentBlocks graph fragment, (graph.node other).start ≠ target

theorem Levelled.later (levelled : Levelled session.graph) (edits : Edits rights session next)
    (whole : ¬rights.cuts) (settled : ¬rights.owns) (still : ¬rights.encloses)
    (keeps : next.graph.JumpsKeepLevel) : Levelled next.graph := by
  refine ⟨keeps, edits.bare_dropLast whole levelled.init, fun fragment block member => ?_, ?_⟩
  · rw [edits.fragmentBlocks_eq settled] at member
    obtain ⟨isBlock, level⟩ := levelled.level fragment block member
    exact ⟨edits.isBlock isBlock, edits.level settled still isBlock level⟩
  · intro first second isFirst isSecond same
    rw [edits.isBlock_eq whole] at isFirst isSecond
    rw [(edits.grows.nodes first (lt_size_of_isBlock isFirst)).start,
      (edits.grows.nodes second (lt_size_of_isBlock isSecond)).start] at same
    exact levelled.apart first second isFirst isSecond same

theorem LeavesFunction.earlier (leaves : LeavesFunction next.graph block jump) (sound : session.Sound)
    (edits : Edits rights session next) (settled : ¬rights.owns) : LeavesFunction session.graph block jump := by
  obtain ⟨fragment, target, member, jumps, elsewhere⟩ := leaves
  rw [edits.fragmentBlocks_eq settled] at member elsewhere
  refine ⟨fragment, target, member, jumps, fun other among => ?_⟩
  rw [← (edits.grows.nodes other (lt_of_mem_fragmentBlocks sound.graph among)).start]
  exact elsewhere other among

/-- A jump along an edge that leaves the level of its fragment leaves the function. -/
theorem Levelled.leavesFunction {after : NodeId} {target : Nat}
    (levelled : Levelled graph) (member : block ∈ fragmentBlocks graph fragment)
    (last : (graph.node block).last? = some jump) (jumps : jump.targetOf? .b = some target)
    (edge : after ∈ (graph.node block).successors) (leaves : (graph.node after).parent ≠ some fragment) :
    LeavesFunction graph block jump := by
  refine ⟨fragment, target, member, jumps, fun other among starts => leaves ?_⟩
  have isTarget : (graph.node block).jumpTarget? = some target :=
    Option.bind_eq_some_iff.mpr ⟨jump, last, jumps⟩
  obtain ⟨reached, isReached, atTarget, level⟩ := levelled.keeps block target isTarget after edge
  obtain ⟨isOther, onLevel⟩ := levelled.level fragment other among
  have same := levelled.apart reached other isReached isOther (atTarget.trans starts.symm)
  rw [← level, same]
  exact onLevel

def confiningRights (graph : FlowGraph) : Rights :=
  { Rights.none with
    marks := fun block jump which =>
      which = .returns ∧ (Levelled graph → LeavesFunction graph block jump) }

theorem jumpsKeepLevel_foldl_removeEdge (block : NodeId) (leaving : List NodeId)
    (keeps : graph.JumpsKeepLevel) :
    (leaving.foldl (fun graph id => graph.removeEdge block id) graph).JumpsKeepLevel :=
  List.foldlRecOn (motive := JumpsKeepLevel) leaving _ keeps fun _ keeps id _ => keeps.removeEdge block id

theorem revises_confineBlock {first : Session} {isRoot : Bool}
    (sound : first.Sound) (edits : Edits (confiningRights first.graph) first session)
    (member : block ∈ fragmentBlocks first.graph fragment)
    (levelled : Levelled first.graph → Levelled session.graph) :
    Revises (confiningRights first.graph) (confineBlock fragment isRoot block) session
      fun _ next => Levelled first.graph → Levelled next.graph := by
  have edges := (edits.sound sound).graph.edges
  refine .getGraph_bind ?_
  extract_lets node leaving leavesTo cut
  split
  · exact .pure levelled
  · next some =>
    have onward : Revises (confiningRights first.graph) (cut ()) session
        fun _ next => Levelled first.graph → Levelled next.graph := by
      dsimp only [cut]
      split
      · next ends =>
        obtain ⟨target, isTarget⟩ := Option.isSome_iff_exists.mp ends
        obtain ⟨jump, last, jumps⟩ := Option.bind_eq_some_iff.mp isTarget
        have allowed (known : Levelled first.graph) : LeavesFunction first.graph block jump := by
          obtain ⟨after, isLeaving⟩ := List.exists_mem_of_ne_nil leaving (by simpa using some)
          obtain ⟨edge, leaves⟩ := List.mem_filter.mp isLeaving
          have among : block ∈ fragmentBlocks session.graph fragment := by
            rw [edits.fragmentBlocks_eq id]
            exact member
          exact ((levelled known).leavesFunction among last jumps edge
            (of_decide_eq_true leaves)).earlier sound edits id
        have replaces : GraphEdit (confiningRights first.graph) session.graph
            (session.graph.replaceJump block .returns).1 :=
          .mark block jump .returns last ⟨Instruction.opcode_eq jumps, fun _ => ⟨rfl, allowed⟩⟩
        refine .imp (.mono (.refl _) (.modifyGraph replaces.one)) fun _ next done known => ?_
        refine (levelled known).later done.1 id id id ?_
        rw [done.2]
        exact (levelled known).keeps.replaceJump edges ((levelled known).init block) .returns
      · split
        · exact .throw rfl
        · refine .imp (.mono (.refl _) (.modifyGraph
            (.foldl fun id _ next _ => (GraphEdit.removeEdge block id).one))) fun _ next done known => ?_
          refine (levelled known).later done.1 id id id ?_
          rw [done.2]
          exact jumpsKeepLevel_foldl_removeEdge block leaving (levelled known).keeps
    split
    · exact .throw_bind rfl
    · exact onward

theorem revises_confine {first : Session} (sound : first.Sound)
    (edits : Edits (confiningRights first.graph) first session)
    (levelled : Levelled first.graph → Levelled session.graph) :
    Revises (confiningRights first.graph) (confine root fragment) session
      fun _ next => Levelled first.graph → Levelled next.graph := by
  refine .getGraph_bind (.forKeep _ levelled fun block member next toNext kept => ?_)
  rw [edits.fragmentBlocks_eq id] at member
  exact revises_confineBlock sound (edits.trans toNext) member kept

def Context.Increasing (context : Context) : Prop :=
  context.blocks.Pairwise fun first second =>
    (context.graph.node first).start < (context.graph.node second).start

theorem Context.Increasing.nodup_starts {context : Context} (increasing : context.Increasing) :
    (context.blocks.map fun block => (context.graph.node block).start).Nodup :=
  List.pairwise_map.mpr (List.Pairwise.imp Nat.ne_of_lt increasing)

structure Session.Laid (source : Source) (session : Session) : Prop where
  lands : session.graph.JumpsLand
  init : ∀ id, Bare (session.graph.node id).instructions.dropLast
  empty : ∀ fragment, fragmentBlocks session.graph fragment = []
  increasing : session.context.Increasing
  code : HoldsCode source session.graph
  unmarked : Unmarked session.graph

theorem Session.Laid.assigned (laid : session.Laid source) (name : String) (start stop : Nat)
    (parent : Option NodeId) :
    Assigned (session.graph.addNode (.fragment ⟨name, none, []⟩) start stop parent) [] := by
  have noBlocks (fragment : NodeId) : fragmentBlocks (session.graph.addNode
      (.fragment ⟨name, none, []⟩) start stop parent) fragment = [] :=
    (fragmentBlocks_addNode rfl start stop parent fragment).trans (laid.empty fragment)
  refine ⟨laid.lands.addNode start stop parent, fun id => ?_, fun fragment => ?_,
    fun fragment block member => ?_⟩
  · rw [node_addNode]
    split
    · exact List.forall_mem_nil _
    · exact laid.init id
  · rw [noBlocks fragment]
  · rw [noBlocks fragment] at member
    cases member

theorem Assigned.levelled (assigned : Assigned session.graph session.blocks)
    (sound : session.Sound) (increasing : session.context.Increasing) : Levelled session.graph := by
  refine ⟨assigned.lands.jumpsKeepLevel, assigned.init, fun fragment block member => ?_, ?_⟩
  · exact ⟨(sound.blocks block).mp ((assigned.listed fragment).subset member),
      assigned.level fragment block member⟩
  · intro first second isFirst isSecond
    exact List.inj_on_of_nodup_map increasing.nodup_starts ((sound.blocks first).mpr isFirst)
      ((sound.blocks second).mpr isSecond)

theorem Context.Increasing.later (increasing : session.context.Increasing) (sound : session.Sound)
    (edits : Edits rights session next) (whole : ¬rights.cuts) : next.context.Increasing := by
  rw [Context.Increasing, edits.blocks_eq whole]
  refine List.Pairwise.imp_of_mem (fun {first second} isFirst isSecond before => ?_) increasing
  have becomes {block : NodeId} (member : block ∈ session.blocks) :=
    edits.grows.nodes block (lt_size_of_isBlock ((sound.blocks block).mp member))
  rw [(becomes isFirst).start, (becomes isSecond).start]
  exact before

def fragmentRights : Rights :=
  { Rights.none with marks := fun _ _ which => which = .returns, founds := True, owns := True }

theorem assigningRights_within : assigningRights.Within fragmentRights :=
  ⟨fun _ _ _ => False.elim, id, id, id, id, id, id⟩

theorem confiningRights_within (graph : FlowGraph) : (confiningRights graph).Within fragmentRights :=
  ⟨fun _ _ _ marks => marks.1, id, id, fun _ => trivial, fun _ => trivial, id, id⟩

theorem Traced.confined (traced : Traced source session) (sound : session.Sound)
    (levelled : Levelled session.graph)
    (edits : Edits (confiningRights session.graph) session next) : Traced source next := by
  have same := edits.claims_eq id
  refine traced.of_marks sound edits id id id (fun _ member => same ▸ member) ?_
  rintro _ block jump _ ⟨rfl, leaves⟩
  obtain ⟨fragment, target, member, jumps, elsewhere⟩ := leaves levelled
  refine ⟨fragment, target, member, jumps, .inl (.otherFunction fun other among => ?_)⟩
  rw [edits.fragmentBlocks_eq id] at among
  rw [(edits.grows.nodes other (lt_of_mem_fragmentBlocks sound.graph among)).start]
  exact elsewhere other among

structure Session.Founded (source : Source) (session : Session) : Prop where
  traced : Traced source session
  listed : ∀ fragment, (fragmentBlocks session.graph fragment).Sublist session.blocks
  level : ∀ fragment, ∀ block ∈ fragmentBlocks session.graph fragment,
    (session.graph.node block).parent = some fragment

theorem Session.Founded.of_same (founded : session.Founded source) (context : next.context = session.context)
    (claims : next.claims = session.claims) : next.Founded source := by
  obtain ⟨traced, listed, level⟩ := founded
  rw [← context] at listed level
  exact ⟨traced.of_same context claims, listed, level⟩

/-- There is a root. Every fragment has its blocks in order and on its level, and the returns that
leave one have a reason. -/
theorem revises_buildFragments :
    Revises fragmentRights (buildFragments source) session fun _ next =>
      next.root.isSome = true ∧ (session.Laid source → next.Founded source) := by
  refine .of_sound fun sound => .getContext_bind ?_
  split
  · next rooted =>
    refine .pure ⟨rooted, fun laid => ⟨laid.unmarked.traced laid.code, fun fragment => ?_,
      fun fragment block member => ?_⟩⟩
    · rw [laid.empty fragment]
      exact List.nil_sublist _
    · rw [laid.empty fragment] at member
      cases member
  · next rootless =>
    refine .bind_within assigningRights_within (.addFragment trivial (fun _ same => absurd same (by simp))) ?_
    rintro root made madeSound toMade ⟨⟨parts, isFragment⟩, isMade⟩
    have isRoot : made.graph.Owner root := .of_kind isFragment rfl
    refine .bind_within assigningRights_within (.modifyFragments trivial rfl ?_ ?_ ?_)
      fun _ listed listedSound toListed isListed => ?_
    · intro id already
      rw [isMade] at already
      exact absurd (Option.isSome_of_eq_some already) rootless
    · rintro _ ⟨⟩
      exact isRoot
    · exact List.forall_mem_append.mpr ⟨madeSound.fragments, List.forall_mem_singleton.mpr isRoot⟩
    have rooted : listed.root = some root := by rw [isListed]
    refine .getContext_bind (.bind_within assigningRights_within
      (revises_assignBlocks _ (toListed.owner isRoot) ?_ ?_ ?_) ?_)
    · intro id member
      exact List.mem_singleton.mp member ▸ toListed.owner isRoot
    · exact fun _ same => absurd same (by simp)
    · exact fun id member => (listedSound.blocks id).mp member
    intro stack assigned assignedSound toAssigned assigns
    have rooted := toAssigned.root_eq rooted
    have toListed := toMade.trans toListed
    have toAssigned := toListed.trans toAssigned
    have isAssigned (laid : session.Laid source) : Assigned assigned.graph assigned.blocks := by
      have empty : Assigned listed.graph [] := by
        rw [isListed, isMade]
        exact laid.assigned _ _ _ _
      rw [toAssigned.blocks_eq id, ← toListed.blocks_eq id]
      refine assigns [] (List.forall_mem_nil _) ?_ empty
      rw [toListed.blocks_eq id]
      exact .of_map _ laid.increasing.nodup_starts
    extract_lets finish
    have onward : Revises fragmentRights (finish ()) assigned fun _ next =>
        next.root.isSome = true ∧ (session.Laid source → next.Founded source) := by
      have confines : Revises (confiningRights assigned.graph)
          (assigned.fragments.forM (confine root)) assigned fun _ next =>
            Levelled assigned.graph → Levelled next.graph :=
        .forKeep _ id fun fragment _ next edits kept => revises_confine assignedSound edits kept
      refine .getContext_bind (.bind_within (confiningRights_within _) confines ?_)
      refine fun _ next _ toNext kept => .pure ⟨?_, fun laid => ?_⟩
      · rw [toNext.root_eq rooted]
        rfl
      have levelled := (isAssigned laid).levelled assignedSound (laid.increasing.later sound toAssigned id)
      have traced : Traced source assigned :=
        (laid.unmarked.later toAssigned fun _ _ _ => id).traced (laid.code.later toAssigned id)
      refine ⟨traced.confined assignedSound levelled toNext, fun fragment => ?_,
        fun fragment block member => ((kept levelled).level fragment block member).2⟩
      rw [toNext.fragmentBlocks_eq id, toNext.blocks_eq id]
      exact (isAssigned laid).listed fragment
    split
    · exact .getGraph_bind (.throw_bind rfl)
    · exact onward

end Structuring.Recovery
