import Structuring.Proofs.Isolation.Layers
import Structuring.Proofs.Levels
import Structuring.Proofs.WholeRun

/-! Edges between function bodies.

Once fragments are found, the only edges from one level to another are those that lead on from a
nested body whose end is also the end of the body around it, or the start of another body.
-/

namespace Structuring

open Bytecode Recovery FlowGraph

variable {fragment root id : NodeId}

namespace Recovery

variable {session : Session} {first next final : FlowGraph} {done : List NodeId} {block : NodeId}

def Confined (graph : FlowGraph) (block : NodeId) : Prop :=
  ∀ level ∈ graph.levelsAfter block, level = (graph.node block).parent

/-- The edges of some blocks are confined. All other nodes lead to the levels that they led to. -/
structure Confining (first next : FlowGraph) (done : List NodeId) : Prop where
  keeps : Keeps first next
  agree : next.Mutual
  members : ∀ id, fragmentBlocks next id = fragmentBlocks first id
  known : ∀ id ∈ done, id < first.size
  others : ∀ id ∉ done, next.levelsAfter id = first.levelsAfter id
  confined : ∀ id ∈ done, Confined next id

theorem Confining.step (before : Confining first next done) (bound : block < first.size)
    (one : Confining next final [block]) : Confining first final (done ++ [block]) := by
  have others (id : NodeId) (apart : id ≠ block) : final.levelsAfter id = next.levelsAfter id :=
    one.others id fun member => apart (List.mem_singleton.mp member)
  refine ⟨before.keeps.trans one.keeps, one.agree, fun id => (one.members id).trans (before.members id),
    fun id member => ?_, fun id outside => ?_, fun id member => ?_⟩
  · rcases List.mem_append.mp member with old | new
    · exact before.known id old
    · exact List.mem_singleton.mp new ▸ bound
  · exact (one.others id fun new => outside (List.mem_append_right _ new)).trans
      (before.others id fun old => outside (List.mem_append_left _ old))
  · by_cases here : id = block
    · exact here ▸ one.confined block (.head _)
    · have old := (List.mem_append.mp member).resolve_right fun new => here (List.mem_singleton.mp new)
      intro level isLevel
      rw [others id here] at isLevel
      rw [one.keeps.parent id (before.keeps.lt (before.known id old))]
      exact before.confined id old level isLevel

/-- A return in the place of the jump of a block is on the level of the block. -/
theorem confining_replaceJump (agree : first.Mutual) (bound : block < first.size)
    (ends : (first.node block).last?.isSome = true) :
    Confining first (first.replaceJump block .returns).1 [block] := by
  have keeps := Keeps.replaceJump first block .returns
  obtain ⟨others, self⟩ := levelsAfter_replaceJump agree ends (show Sentinel.returns ≠ .empty by simp)
  have relinks : Relinks (fun _ => none) first (first.replaceJump block .returns).1 :=
    .replaceJump first block .returns
  have agrees := (relinks.closed ⟨agree, fun _ _ _ => rfl⟩).edgesAgree
  refine ⟨keeps, agrees, fragmentBlocks_replaceJump block .returns, fun id member => ?_,
    fun id apart => others id fun here => apart (here ▸ .head _), fun id member level isLevel => ?_⟩
  · exact List.mem_singleton.mp member ▸ bound
  · rw [List.mem_singleton.mp member] at isLevel ⊢
    exact (self level isLevel).trans (keeps.parent block bound).symm

theorem confining_foldl_removeEdge (agree : first.Mutual) (level : (first.node block).parent = some fragment) :
    Confining first (((first.node block).successors.filter fun id =>
      (first.node id).parent ≠ some fragment).foldl (fun graph id => graph.removeEdge block id) first)
      [block] := by
  generalize isLeaving : (first.node block).successors.filter (fun id =>
    (first.node id).parent ≠ some fragment) = leaving
  have same : SameCores first (leaving.foldl (fun graph id => graph.removeEdge block id) first) :=
    .foldl _ (fun graph id => sameCores_removeEdge graph block id) leaving first
  have agrees : (leaving.foldl (fun graph id => graph.removeEdge block id) first).Mutual :=
    List.foldlRecOn (motive := Mutual) leaving _ agree fun _ agree id _ => mutual_removeEdge agree block id
  refine ⟨.of_sameCores same, agrees, same.fragmentBlocks, fun id member => ?_, fun id apart => ?_,
    fun id member other isLevel => ?_⟩
  · exact List.mem_singleton.mp member ▸ lt_size_of_parent level
  · have apart : block ≠ id := fun here => apart (here ▸ .head _)
    exact levelsAfter_eq agree (.of_sameCores same) (successors_foldl_removeEdge_of_ne apart leaving first)
  · rw [List.mem_singleton.mp member] at isLevel ⊢
    obtain ⟨target, isTarget, rfl⟩ := List.mem_map.mp isLevel
    rw [same.parent, same.parent, level]
    -- All edges to a target on another level are among those that are cut.
    refine Classical.byContradiction fun leaves => ?_
    have left := count_successors_foldl_removeEdge block leaving first target
    rw [← isLeaving, List.count_filter (by simpa using leaves), Nat.sub_self, isLeaving] at left
    exact List.count_eq_zero.mp left isTarget

theorem returns_confineBlock {isRoot : Bool} (agree : session.graph.Mutual)
    (level : (session.graph.node block).parent = some fragment) :
    Returns (confineBlock fragment isRoot block) session fun _ final =>
      final = session.withGraph final.graph ∧ Confining session.graph final.graph [block] := by
  refine .getGraph_bind ?_
  extract_lets node leaving leavesTo cut
  have known (id : NodeId) (member : id ∈ [block]) : id < session.graph.size :=
    List.mem_singleton.mp member ▸ lt_size_of_parent level
  split
  · next none =>
    refine .pure ⟨rfl, .refl _, agree, fun _ => rfl, known, fun _ _ => rfl, fun id member => ?_⟩
    rw [List.mem_singleton.mp member]
    intro other isLevel
    obtain ⟨target, isTarget, rfl⟩ := List.mem_map.mp isLevel
    have stays := List.filter_eq_nil_iff.mp (List.isEmpty_iff.mp none) target isTarget
    exact (by simpa using stays : _ = some fragment).trans level.symm
  · have cuts : Returns (cut ()) session fun _ final =>
        final = session.withGraph final.graph ∧ Confining session.graph final.graph [block] := by
      dsimp only [cut]
      split
      · next jumps =>
        have ends : (session.graph.node block).last?.isSome = true := by
          obtain ⟨target, isTarget⟩ := Option.isSome_iff_exists.mp jumps
          obtain ⟨jump, last, _⟩ := Option.bind_eq_some_iff.mp isTarget
          exact Option.isSome_of_eq_some last
        refine .imp .modifyGraph fun _ final isFinal => ?_
        rw [isFinal]
        exact ⟨rfl, confining_replaceJump agree (lt_size_of_parent level) ends⟩
      · split
        · exact .throw trivial
        · refine .imp .modifyGraph fun _ final isFinal => ?_
          rw [isFinal]
          exact ⟨rfl, confining_foldl_removeEdge agree level⟩
    split
    · exact .throw_bind trivial
    · exact cuts

theorem returns_confineAll {fragments : List NodeId} (agree : session.graph.Mutual)
    (placed : ∀ fragment, ∀ block ∈ fragmentBlocks session.graph fragment,
      (session.graph.node block).parent = some fragment) :
    Returns (fragments.forM (confine root)) session fun _ final =>
      final = session.withGraph final.graph ∧ Confining session.graph final.graph
        (fragments.flatMap (fragmentBlocks session.graph)) := by
  refine .forM_done (fun done next => next = session.withGraph next.graph ∧
    Confining session.graph next.graph (done.flatMap (fragmentBlocks session.graph)))
    ⟨rfl, .refl _, agree, fun _ => rfl, by simp, fun _ _ => rfl, by simp⟩ ?_
  rintro done fragment _ _ next ⟨frame, before⟩
  have members := before.members fragment
  refine .getGraph_bind (.imp (.forM_done (fun blocks final => final = session.withGraph final.graph ∧
    Confining session.graph final.graph
      (done.flatMap (fragmentBlocks session.graph) ++ blocks)) ⟨frame, by simpa using before⟩ ?_) ?_)
  · rintro blocks block rest split later ⟨frame, before⟩
    have member : block ∈ fragmentBlocks session.graph fragment := by
      rw [← members, split]
      simp
    have level := placed fragment block member
    have bound := lt_size_of_parent level
    refine .imp (returns_confineBlock before.agree ((before.keeps.parent block bound).trans level)) ?_
    rintro _ final ⟨same, one⟩
    refine ⟨?_, List.append_assoc _ _ _ ▸ before.step bound one⟩
    rw [same, frame]
    rfl
  · rintro _ final ⟨frame, after⟩
    refine ⟨frame, ?_⟩
    rw [members] at after
    simpa using after

/-! The fragments of a graph of blocks -/

namespace Context.Blocked

variable {context : Context} {slices : List (AddressRange × List Instruction)}

theorem mem_blocks (blocked : context.Blocked slices) : id ∈ context.blocks ↔ id < context.graph.size := by
  rw [blocked.whole, blocked.size]
  exact List.mem_range

theorem isBlock (blocked : context.Blocked slices) (bound : id < context.graph.size) :
    (context.graph.node id).kind.isBlock = true := by
  have core := congrArg Node.kind (blocked.core id (blocked.size ▸ bound))
  exact congrArg Kind.isBlock core

theorem noFragments (blocked : context.Blocked slices) (id : NodeId) :
    fragmentBlocks context.graph id = [] := by
  rw [FlowGraph.fragmentBlocks_eq]
  by_cases bound : id < context.graph.size
  · have kind := congrArg Node.kind (blocked.core id (blocked.size ▸ bound))
    exact congrArg Kind.members kind
  · rw [node_of_size_le (Nat.le_of_not_lt bound)]
    rfl

theorem increasing (blocked : context.Blocked slices)
    (sorted : (slices.map (·.1.start)).Pairwise (· < ·)) : context.Increasing :=
  List.pairwise_map.mp (blocked.map_start ▸ sorted)

/-- A block that ends in a jump leads to where the jump goes, and nowhere else. -/
theorem jumps (blocked : context.Blocked slices) (bound : id < context.graph.size)
    {target : Nat} (jumps : (context.graph.node id).jumpTarget? = some target) :
    ∃ after ∈ context.blocks, (context.graph.node id).successors = [after] ∧
      (context.graph.node after).start = target := by
  have isTarget := target?_of_jumpTarget? jumps
  have inside : id < slices.length := blocked.size ▸ bound
  obtain ⟨after, found⟩ := blocked.lands id (List.mem_range.mpr inside) target isTarget
  have stays : fallsThrough (context.graph.node id) ≠ true := fun falls => by
    rw [jumpTarget?_of_fallsThrough falls] at jumps
    cases jumps
  refine ⟨after, ?_, ?_, by simpa using List.find?_some found⟩
  · rw [blocked.whole]
    exact List.mem_of_find?_eq_some found
  · rw [blocked.successors id inside, exits, if_neg stays, isTarget]
    simp [found]

end Context.Blocked

theorem Context.Blocked.assigning {source : Source} {context : Context} {name : String}
    (blocked : context.Blocked source.code.slices) (agree : context.graph.Mutual) {next : Context}
    (isNext : next = { context with
      graph := context.graph.addNode (.fragment { name, entry := none, blocks := [] }) 0
        source.code.length none
      root := some context.graph.size
      fragments := context.fragments ++ [context.graph.size] }) :
    Assigning source next (fun id => (next.graph.node id).parent) none [] next.blocks next.blocks
      [context.graph.size] := by
  have sorted : (source.code.slices.map (·.1.start)).Pairwise (· < ·) := by
    rw [map_start_sliceAt]
    exact sorted_cutPoints source.code
  have increasing := blocked.increasing sorted
  have fragments : next.fragments = [context.graph.size] := by
    rw [isNext, blocked.whole]
    rfl
  have blocks : next.blocks = context.blocks := by rw [isNext]
  have graph : next.graph = context.graph.addNode
      (.fragment { name, entry := none, blocks := [] }) 0 source.code.length none := by rw [isNext]
  have old (id : NodeId) (member : id ∈ next.blocks) :
      id < context.graph.size ∧ next.graph.node id = context.graph.node id := by
    have bound := blocked.mem_blocks.mp (blocks ▸ member)
    rw [graph, node_addNode, if_neg (Nat.ne_of_lt bound)]
    exact ⟨bound, rfl⟩
  have new : next.graph.node context.graph.size =
      { start := 0
        stop := source.code.length
        parent := none
        kind := .fragment { name, entry := none, blocks := [] } } := by
    rw [graph, node_addNode, if_pos rfl]
  refine ⟨.root _ (by rw [new]), by simp [fragments], rfl, fun _ same => absurd same (by simp), ?_,
    fun id member => ?_, fun id member => ?_, fun id bound => ?_, ?_, fun _ member => ?_,
    fun fragment id member => ?_, fun id left target jumps => ?_, fun fragment member => .inl ?_⟩
  · rw [Context.Increasing, blocks]
    refine List.Pairwise.imp_of_mem (fun {first second} isFirst isSecond before => ?_) increasing
    rw [(old first (blocks ▸ isFirst)).2, (old second (blocks ▸ isSecond)).2]
    exact before
  · obtain ⟨bound, same⟩ := old id member
    exact same ▸ blocked.isBlock bound
  · rw [fragments] at member
    rw [List.mem_singleton.mp member, new]
    exact ⟨_, rfl⟩
  · rw [graph, size_addNode] at bound
    rcases Nat.lt_succ_iff_lt_or_eq.mp bound with inside | rfl
    · exact .inl (blocks ▸ blocked.mem_blocks.mpr inside)
    · exact .inr (by simp [fragments])
  · exact graph ▸ (sameEdges_addNode _ _ _ _).mutual agree
  · cases member
  · rw [graph, fragmentBlocks_addNode rfl, blocked.noFragments] at member
    cases member
  · obtain ⟨bound, same⟩ := old id (left.resolve_left (by simp))
    rw [same] at jumps ⊢
    obtain ⟨after, isAfter, edge, starts⟩ := blocked.jumps bound jumps
    exact ⟨after, blocks ▸ isAfter, edge, (old after (blocks ▸ isAfter)).2 ▸ starts⟩
  · rw [fragments] at member
    rw [List.mem_singleton.mp member, new]
    exact ⟨rfl, rfl⟩

def Context.rooted (source : Source) (context : Context) : Context :=
  { context with
    graph := context.graph.addNode (.fragment { name := source.code.name, entry := none, blocks := [] }) 0
      source.code.length none
    root := some context.graph.size
    fragments := context.fragments ++ [context.graph.size] }

theorem Context.Blocked.layered {source : Source} {context : Context}
    (blocked : context.Blocked source.code.slices) :
    Layered source.code (context.rooted source) [] (context.rooted source).blocks [context.graph.size] := by
  have fragments : (context.rooted source).fragments = [context.graph.size] := by
    rw [Context.rooted, blocked.whole]
    rfl
  have root : (context.rooted source).graph.node context.graph.size =
      { start := 0
        stop := source.code.length
        parent := none
        kind := .fragment { name := source.code.name, entry := none, blocks := [] } } := by
    rw [Context.rooted, node_addNode, if_pos rfl]
  have none {holds : NodeId → Prop} : ∀ id ∈ ([] : List NodeId), holds id := List.forall_mem_nil _
  refine ⟨⟨⟨_, [], rfl, fragments, by rw [root], by rw [root], by rw [root]⟩, ?_, ?_, ?_, ?_, ?_, none⟩, ?_, ?_, none⟩
  · rw [fragments, List.forall_mem_singleton, root]
  · rw [fragments]
    exact List.pairwise_singleton _ _
  · rw [fragments, List.forall_mem_singleton]
    exact fun inner => absurd rfl inner
  · have atEnd : source.code.length ∈ cutPoints source.code := mem_foldr_insertCut.mpr (.tail _ (.head _))
    rw [← map_start_sliceAt (cutPoints source.code) source.code.instructions, ← blocked.map_start] at atEnd
    obtain ⟨block, member, starts⟩ := List.mem_map.mp atEnd
    refine ⟨block, member, ?_⟩
    rw [Context.rooted, node_addNode, if_neg (Nat.ne_of_lt (blocked.mem_blocks.mp member))]
    exact Nat.le_of_eq starts.symm
  · intro fragment
    rw [Context.rooted, fragmentBlocks_addNode rfl, blocked.noFragments]
    exact .nil
  · rw [fragments, List.forall_mem_singleton, root]
    exact .inl rfl
  · rw [fragments, List.forall_mem_singleton]
    exact .inl (.head _)

/-- Fragments are found by giving blocks to them, and then confining them. -/
theorem ends_buildFragments {source : Source} {found : Session → Prop} {failed : Failure → Session → Prop}
    (rootless : session.root = none)
    (assigns : Ends (assignBlocks source session.graph.size none [session.graph.size]
      session.blocks) ⟨session.context.rooted source, session.claims, session.log⟩ (fun stack assigned =>
        (∀ inner outer rest, stack = inner :: outer :: rest →
          failed (.malformed (assigned.graph.node inner).range .openFragment) assigned) ∧
        Ends (assigned.fragments.forM (confine session.graph.size)) assigned
          (fun _ next => found next) failed) failed) :
    Ends (Recovery.buildFragments source) session (fun _ next => found next) failed := by
  refine ends_bind.mpr ?_
  change Ends (if session.root.isSome then pure false else _) session _ _
  rw [rootless]
  change Ends (assignBlocks source session.graph.size none [session.graph.size]
    session.blocks >>= _) ⟨session.context.rooted source, session.claims, session.log⟩ _ _
  refine ends_bind.mpr (assigns.imp (fun stack assigned known => ?_) fun _ _ => id)
  obtain ⟨unended, confines⟩ := known
  have finish (next : Session) (holds : found next) : Ends (pure true) next (fun _ next => found next) failed := holds
  have onward := ends_bind.mpr (confines.imp (fun _ => finish) fun _ _ => id)
  dsimp only
  split
  · exact unended _ _ _ rfl
  · exact onward

theorem Reaches.buildFragments {source : Source} {post : Session → Prop} (rootless : session.root = none)
    (assigns : ∀ listed : Session, listed.context = session.context.rooted source →
      Returns (assignBlocks source session.graph.size none [session.graph.size]
        listed.blocks) listed fun _ assigned =>
          Returns (assigned.fragments.forM (confine session.graph.size)) assigned fun _ next => post next) :
    Returns (Recovery.buildFragments source) session fun _ next => post next :=
  ⟨ends_buildFragments rootless
    ((assigns ⟨session.context.rooted source, session.claims, session.log⟩ rfl).ends.imp
      (fun _ _ confines => And.intro (fun _ _ _ _ => trivial) confines.ends) fun _ _ => id)⟩

theorem returns_assigned {source : Source} (blocked : session.context.Blocked source.code.slices)
    (agree : session.graph.Mutual) {listed : Session}
    (context : listed.context = session.context.rooted source) :
    Returns (assignBlocks source root none [session.graph.size] listed.blocks) listed
      fun stack assigned => ∃ last,
        Assigning source assigned.context (fun id => (assigned.graph.node id).parent) last
          assigned.blocks [] [] stack ∧
        Layered source.code assigned.context assigned.blocks [] stack := by
  refine .imp (returns_assignBlocks (fun context _ done rest stack => Layered source.code context done rest stack)
    (fun assigning layered isCurrent reaching isTop reached =>
      layered.step assigning isCurrent reaching isTop reached) (blocked.assigning agree context) ?_) ?_
  · rw [context]
    exact blocked.layered
  · rintro stack assigned ⟨last, assigning, layered⟩
    have blocks : listed.blocks = assigned.blocks := by simpa using assigning.blocks.symm
    rw [List.nil_append, blocks] at assigning layered
    exact ⟨last, assigning, layered⟩

theorem returns_buildFragments {source : Source} (blocked : session.context.Blocked source.code.slices)
    (agree : session.graph.Mutual) :
    Returns (buildFragments source) session fun _ next => ∃ (assigned : Context) (last : Option NodeId)
        (stack : List NodeId),
      Assigning source assigned (fun id => (assigned.graph.node id).parent) last assigned.blocks [] [] stack ∧
      Layered source.code assigned assigned.blocks [] stack ∧
      next.context = { assigned with graph := next.graph } ∧
      Confining assigned.graph next.graph (assigned.fragments.flatMap (fragmentBlocks assigned.graph)) := by
  refine .buildFragments (by rw [blocked.whole]) fun listed context => ?_
  refine .imp (returns_assigned blocked agree context) ?_
  rintro stack assigned ⟨last, assigning, layered⟩
  refine .imp (returns_confineAll assigning.agree fun fragment block member =>
    (assigning.placed fragment block member).2) fun _ final ⟨frame, confining⟩ => ?_
  refine ⟨assigned.context, last, stack, assigning, layered, ?_, confining⟩
  rw [frame]
  rfl

end Recovery

variable {source : Source}

namespace Recovery.Assigning

variable {context : Context} {last : Option NodeId} {stack : List NodeId} {graph : FlowGraph}

/-- What abuts when blocks have been given to fragments abuts when they are confined. -/
theorem abuts_iff_confined
    (assigning : Assigning source context (fun id => (context.graph.node id).parent) last context.blocks
      [] [] stack) (keeps : Keeps context.graph graph) {outer : NodeId}
    (isFragment : fragment ∈ context.fragments) (isOuter : outer ∈ context.fragments)
    (inside : (context.graph.node fragment).parent = some outer) :
    graph.Abuts source.code fragment ↔ context.graph.Abuts source.code fragment := by
  have bound := assigning.fragment_lt isFragment
  have outerBound := assigning.fragment_lt isOuter
  rw [abuts_iff inside, abuts_iff ((keeps.parent fragment bound).trans inside), keeps.stop fragment bound,
    keeps.stop outer outerBound, keeps.parent outer outerBound]

/-- A fragment leads to another level exactly if bodies abut at its end, and no other node does. -/
theorem crosses_iff
    (assigning : Assigning source context (fun id => (context.graph.node id).parent) last context.blocks
      [] [] stack)
    (confining : Confining context.graph graph
      (context.fragments.flatMap (fragmentBlocks context.graph))) (id : NodeId) :
    (∃ level ∈ graph.levelsAfter id, level ≠ (graph.node id).parent) ↔
      id ∈ context.fragments ∧ graph.Abuts source.code id := by
  have isBlock (other : NodeId) (member : other ∈ context.fragments.flatMap (fragmentBlocks context.graph)) :
      other ∈ context.blocks := by
    obtain ⟨fragment, _, listed⟩ := List.mem_flatMap.mp member
    exact (assigning.placed fragment other listed).1
  by_cases isFragment : id ∈ context.fragments
  · have bound := assigning.fragment_lt isFragment
    have levels := confining.others id fun member => assigning.apart isFragment (isBlock id member) rfl
    rw [levels, confining.keeps.parent id bound, levelsAfter]
    simp only [isFragment, true_and]
    rcases assigning.leads id isFragment with ⟨outermost, none⟩ | ⟨_, outer, isOuter, after, _, leads⟩
    · refine iff_of_false (by simp [none]) ?_
      rintro ⟨outer, inside, _⟩
      rw [confining.keeps.parent id bound, outermost] at inside
      cases inside
    · have settled := leads.settled List.not_mem_nil
      rw [assigning.abuts_iff_confined confining.keeps isFragment isOuter leads.inside, leads.edge,
        leads.inside, ← not_iff_not, ← settled]
      simp
  · refine iff_of_false ?_ fun both => isFragment both.1
    rintro ⟨level, isLevel, crosses⟩
    by_cases member : id ∈ context.fragments.flatMap (fragmentBlocks context.graph)
    · exact crosses (confining.confined id member level isLevel)
    · rw [confining.others id member] at isLevel
      obtain ⟨target, isTarget, _⟩ := List.mem_map.mp isLevel
      -- A node with edges is a block or a fragment, and all blocks are confined.
      rcases assigning.all id (lt_size_of_mem_successors isTarget) with block | fragment
      · obtain ⟨fragment, found, listed⟩ := assigning.owned id block
        exact member (List.mem_flatMap.mpr ⟨fragment, found, listed⟩)
      · exact isFragment fragment

end Recovery.Assigning

theorem returns_crossings (ordered : InOrder source.code.instructions) (verify : Bool) :
    Returns (applyPass source verify Pass.blocks) {} fun _ blocks =>
      Returns (applyPass source verify Pass.fragments) blocks fun _ laid => ∀ id,
        (∃ level ∈ laid.graph.levelsAfter id, level ≠ (laid.graph.node id).parent) ↔
          id ∈ laid.fragments ∧ laid.graph.Abuts source.code id := by
  refine .imp (returns_blocks ordered verify) ?_
  rintro _ blocks ⟨sound, _, _, _, blocked⟩
  refine .applyPass (fun context _ => ∀ id,
    (∃ level ∈ context.graph.levelsAfter id, level ≠ (context.graph.node id).parent) ↔
      id ∈ context.fragments ∧ context.graph.Abuts source.code id)
    (.imp (returns_buildFragments blocked sound.graph.edges) ?_) (fun never => absurd trivial never) verify
  rintro _ laid ⟨assigned, last, stack, assigning, _, context, confining⟩ id
  have fragments : laid.fragments = assigned.fragments := by rw [context]
  rw [fragments]
  exact assigning.crosses_iff confining id

/-- Once fragments have been found, a node has an edge to another level exactly if it is a fragment
that ends where a nested body around it ends or where another body starts. -/
theorem crosses_iff_abuts (options : RunOptions) {name listing : String} {code : Code}
    {features : Features} {stopped : RunOutcome} {laid : Session}
    (assembled : Assembly.assemble name listing = .ok code)
    (lays : (run ⟨code, features⟩ { options with dumpAfter := some Pass.fragments.name }
      Pass.standard).run {} = .ok stopped laid) (id : NodeId) :
    (∃ target ∈ (laid.graph.node id).successors,
        (laid.graph.node target).parent ≠ (laid.graph.node id).parent) ↔
      id ∈ laid.fragments ∧ laid.graph.Abuts code id := by
  obtain ⟨_, blocks, _, _, cuts, founds, stops, _⟩ := layout_of_run
    (by simp [Pass.fragments, Pass.blocks]) lays
  obtain rfl := stops rfl
  have ordered : InOrder (Source.mk code features).code.instructions :=
    Assembly.inOrder_of_assemble assembled
  have crossings := ((returns_crossings ordered options.verify).run cuts).run founds id
  simpa [levelsAfter] using crossings

def sharedEnd : String := "b [end]\n> outer\nb [end]\n> inner\nexit.i\n:[end]\nexit.i"

def adjacentBodies : String := "b [x]\n> f\nb [y]\n:[x]\n> g\nexit.i\n:[y]\nexit.i"

theorem crosses_iff_abuts_sharedEnd :
    ∃ code stopped laid, Assembly.assemble "entry" sharedEnd = .ok code ∧
      (run ⟨code, .all⟩ { dumpAfter := some Pass.fragments.name } Pass.standard).run {} =
        .ok stopped laid ∧
      laid.fragments = [5, 6, 7] ∧
      laid.graph.Abuts code 7 ∧ ¬laid.graph.Abuts code 6 := by
  obtain ⟨code, stopped, laid, assembled, lays, fragments, crosses, stays⟩ :=
    exists_of_evaluates "entry" sharedEnd
      (fun code => (run ⟨code, .all⟩ { dumpAfter := some Pass.fragments.name } Pass.standard).run {})
      (fun _ _ laid => laid.fragments = [5, 6, 7] ∧
        (∃ target ∈ (laid.graph.node 7).successors,
          (laid.graph.node target).parent ≠ (laid.graph.node 7).parent) ∧
        ¬∃ target ∈ (laid.graph.node 6).successors,
          (laid.graph.node target).parent ≠ (laid.graph.node 6).parent) (by decide +kernel)
  have decides := crosses_iff_abuts {} assembled lays
  refine ⟨code, stopped, laid, assembled, lays, fragments, ((decides 7).mp crosses).2, fun abuts => ?_⟩
  exact stays ((decides 6).mpr ⟨by simp [fragments], abuts⟩)

/-- A listing whose fragments are found, with an edge from one level to another. -/
def LaysOpen (listing : String) : Prop :=
  ∃ code stopped laid, Assembly.assemble "entry" listing = .ok code ∧
    (run ⟨code, .all⟩ { dumpAfter := some Pass.fragments.name } Pass.standard).run {} =
      .ok stopped laid ∧ ¬laid.graph.Closed

theorem LaysOpen.of_evaluated {listing : String}
    (evaluated : evaluates "entry" listing
      (fun code => (run ⟨code, .all⟩ { dumpAfter := some Pass.fragments.name } Pass.standard).run {})
      (fun _ _ laid => ¬laid.graph.Closed) = true) : LaysOpen listing :=
  exists_of_evaluates _ _ _ _ evaluated

/-- Edges do cross the boundaries of fragments: from a body to what follows the body around it, and
from a body into the one behind it. -/
theorem fragments_not_isolated : LaysOpen sharedEnd ∧ LaysOpen adjacentBodies :=
  ⟨.of_evaluated (by decide +kernel), .of_evaluated (by decide +kernel)⟩

end Structuring
