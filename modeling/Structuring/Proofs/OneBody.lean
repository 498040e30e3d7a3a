import Structuring.Proofs.Slots.Layout

/-! Code entries without functions inside.

The root fragment owns every block, no edge leaves it, and finding fragments does not fail. Passes of
such an entry are followed from there.
-/

namespace Structuring

open Bytecode Recovery FlowGraph

variable {source : Source} {session : Session} {mayFail : Prop}
  {slices : List (AddressRange × List Instruction)} {graph next : FlowGraph} {name : String}
  {blocks : List NodeId} {rest : List Pass} {options : RunOptions} {post : RunOutcome → Session → Prop}

namespace Recovery

/-! Blocks given to one fragment -/

structure Owns (graph next : FlowGraph) (root : NodeId) (name : String) (blocks : List NodeId) : Prop where
  size : next.size = graph.size
  parent : ∀ id, id ≠ root → (next.node id).parent =
    if id ∈ blocks then some root else (graph.node id).parent
  rest : ∀ id, id ≠ root → { next.node id with parent := none } = { graph.node id with parent := none }
  root : next.node root =
    { graph.node root with kind := .fragment { name, entry := blocks.head?, blocks } }

theorem Owns.ownBlock {root block : NodeId}
    (owns : Owns graph next root name blocks) (other : block ≠ root) (bound : block < graph.size)
    (rootBound : root < graph.size) : Owns graph (ownBlock next root block) root name (blocks ++ [block]) := by
  have nodes (id : NodeId) (apart : id ≠ root) : (Recovery.ownBlock next root block).node id =
      if id = block then { next.node id with parent := some root } else next.node id := by
    rw [Recovery.ownBlock, mapKind, node_modify, if_neg fun here => apart here.1.symm, setParent, node_modify]
    by_cases here : id = block
    · subst here
      rw [if_pos rfl, if_pos ⟨rfl, owns.size ▸ bound⟩]
    · rw [if_neg here, if_neg fun same => here same.1.symm]
  refine ⟨?_, fun id apart => ?_, fun id apart => ?_, ?_⟩
  · simp only [Recovery.ownBlock, mapKind, setParent, size_modify]
    exact owns.size
  · rw [nodes id apart]
    by_cases here : id = block
    · simp [here]
    · simp [here, owns.parent id apart]
  · rw [nodes id apart, ← owns.rest id apart]
    split <;> rfl
  · rw [Recovery.ownBlock, mapKind, node_modify, if_pos ⟨rfl, by simpa [setParent, owns.size] using rootBound⟩,
      setParent, node_modify, if_neg fun here => other here.1, owns.root]
    cases blocks <;> rfl

theorem reaches_assignBlocks {root : NodeId} {done rest : List NodeId}
    (childless : source.code.children = []) (rootBound : root < graph.size)
    (bounds : ∀ block ∈ rest, block < graph.size ∧ block ≠ root) (previous : Option NodeId)
    (owns : Owns graph session.graph root name done) :
    Reaches (fun _ => mayFail) (assignBlocks source root previous [root] rest) session fun stack next =>
      stack = [root] ∧ next = session.withGraph next.graph ∧
        Owns graph next.graph root name (done ++ rest) := by
  induction rest generalizing session previous done with
  | nil => exact .pure ⟨rfl, rfl, by simpa using owns⟩
  | cons block rest ih =>
    obtain ⟨bound, other⟩ := bounds block (.head _)
    have none (address : Nat) : childAt? source.code address = none := by simp [childAt?, childless]
    refine .getGraph_bind ?_
    have stays : Reaches (fun _ => mayFail) (fragmentsAt source previous [root] root block) session fun stack next =>
        stack = [root] ∧ next = session := by
      refine .getGraph_bind ?_
      dsimp only
      rw [none]
      exact .pure ⟨rfl, rfl⟩
    refine .bind stays ?_
    rintro stack next ⟨isStack, same⟩
    subst isStack same
    refine .modifyGraph_bind fun owned isOwned ownedGraph => ?_
    refine .imp (ih (fun later member => bounds later (.tail _ member)) (some block)
      (ownedGraph ▸ owns.ownBlock other bound rootBound)) fun stack final ⟨isStack, frame, isFinal⟩ => ?_
    refine ⟨isStack, ?_, by simpa using isFinal⟩
    rw [frame, isOwned]
    rfl

theorem reaches_confine {root fragment : NodeId}
    (inside : ∀ block ∈ fragmentBlocks session.graph fragment,
      ∀ id ∈ (session.graph.node block).successors, (session.graph.node id).parent = some fragment) :
    Reaches (fun _ => mayFail) (confine root fragment) session fun _ next => next = session := by
  refine .getGraph_bind (.forM (· = session) rfl fun block member next same => ?_)
  subst same
  refine .getGraph_bind ?_
  have none : ((next.graph.node block).successors.filter fun id =>
      (next.graph.node id).parent ≠ some fragment) = [] := by
    refine List.filter_eq_nil_iff.mpr fun id isNext => ?_
    simp [inside block member id isNext]
  dsimp only
  rw [none]
  exact .pure rfl

structure Context.Entered (slices : List (AddressRange × List Instruction)) (code : Code) (context : Context) :
    Prop where
  whole : context =
    { graph := context.graph, blocks := List.range slices.length, root := some slices.length
      fragments := [slices.length] }
  size : context.graph.size = slices.length + 1
  root : context.graph.node slices.length =
    { start := 0, stop := code.length, parent := none
      kind := .fragment ⟨code.name, (List.range slices.length).head?, List.range slices.length⟩ }
  core : ∀ (index : Nat) (inside : index < slices.length), (context.graph.node index).core =
    { blockNode index slices[index] with parent := some slices.length }
  successors : ∀ index < slices.length, (context.graph.node index).successors =
    context.graph.exits (List.range slices.length) index (List.range slices.length)[index + 1]?
  lands : Lands context.graph (List.range slices.length) (List.range slices.length)

theorem blockAt?_congr
    (same : ∀ block ∈ blocks, (next.node block).start = (graph.node block).start) (address : Nat) :
    next.blockAt? blocks address = graph.blockAt? blocks address := by
  induction blocks with
  | nil => rfl
  | cons block rest ih =>
    have others := ih fun other member => same other (.tail _ member)
    simp only [FlowGraph.blockAt?, List.find?_cons, same block (.head _)] at others ⊢
    rw [others]

theorem reaches_buildFragments (childless : source.code.children = [])
    (blocked : session.context.Blocked slices) (agree : session.graph.Mutual) :
    Reaches (fun _ => mayFail) (buildFragments source) session fun _ next =>
      next.claims = session.claims ∧ next.context.Entered slices source.code := by
  refine .getContext_bind ?_
  have rootless : session.root = none := by rw [blocked.whole]
  rw [rootless]
  refine .addNode_bind fun made isMade madeGraph => .bind .modifyContext fun _ listed isListed => ?_
  refine .getContext_bind ?_
  rw [blocked.size] at *
  have blocks : listed.blocks = List.range slices.length := by
    rw [isListed, isMade]
    exact congrArg Context.blocks blocked.whole
  rw [blocks]
  have listedGraph : listed.graph = session.graph.addNode
      (.fragment { name := source.code.name, entry := none, blocks := [] }) 0 source.code.length none := by
    rw [isListed]
    exact madeGraph
  have fresh : listed.graph.node slices.length =
      { start := 0, stop := source.code.length, parent := none,
        kind := .fragment { name := source.code.name, entry := none, blocks := [] } } := by
    rw [listedGraph, node_addNode, if_pos blocked.size.symm]
  have start : Owns listed.graph listed.graph slices.length source.code.name [] := by
    refine ⟨rfl, fun _ _ => by simp, fun _ _ => rfl, ?_⟩
    rw [fresh]
    rfl
  have size : listed.graph.size = slices.length + 1 := by
    rw [listedGraph, size_addNode, blocked.size]
  have rootBound : slices.length < listed.graph.size := by omega
  have bounds (block : Nat) (member : block ∈ List.range slices.length) :
      block < listed.graph.size ∧ block ≠ slices.length := by
    have := List.mem_range.mp member
    omega
  refine .bind (reaches_assignBlocks childless rootBound bounds none start) ?_
  rintro stack owned ⟨isStack, frame, owns⟩
  subst isStack
  rw [List.nil_append] at owns
  -- A block is as it was, but for its level.
  have nodes (id : Nat) (inside : id < slices.length) : owned.graph.node id =
      { session.graph.node id with parent := some slices.length } := by
    have parent := owns.parent id (Nat.ne_of_lt inside)
    have rest := owns.rest id (Nat.ne_of_lt inside)
    rw [if_pos (List.mem_range.mpr inside)] at parent
    rw [listedGraph, node_addNode, if_neg (by rw [blocked.size]; exact Nat.ne_of_lt inside)] at rest
    have whole : owned.graph.node id =
        { { owned.graph.node id with parent := none } with
          parent := (owned.graph.node id).parent } := rfl
    rw [whole, rest, parent]
  have starts (id : Nat) (member : id ∈ List.range slices.length) :
      (owned.graph.node id).start = (session.graph.node id).start := by
    rw [nodes id (List.mem_range.mp member)]
  have exits (id : Nat) (inside : id < slices.length) (next : Option NodeId) :
      owned.graph.exits (List.range slices.length) id next =
        session.graph.exits (List.range slices.length) id next := by
    have found : owned.graph.blockAt? (List.range slices.length) =
        session.graph.blockAt? (List.range slices.length) := funext (blockAt?_congr starts)
    have same : (owned.graph.node id).instructions = (session.graph.node id).instructions := by
      rw [nodes id inside]
      rfl
    have falls : fallsThrough (owned.graph.node id) = fallsThrough (session.graph.node id) := by
      unfold fallsThrough Node.last?
      rw [same]
    simp only [FlowGraph.exits, falls, Node.target?, Node.last?, same, found]
  have entered : owned.context.Entered slices source.code := by
    refine ⟨?_, owns.size.trans size, ?_, fun index inside => ?_, fun index inside => ?_, ?_⟩
    · rw [frame, isListed, isMade]
      have whole := blocked.whole
      simp only [Session.withGraph, Context.mk.injEq, true_and]
      exact ⟨congrArg Context.blocks whole, congrArg (·.fragments ++ [slices.length]) whole,
        congrArg Context.loops whole, congrArg Context.chains whole, congrArg Context.conditionals whole,
        congrArg Context.switches whole, congrArg Context.staticInits whole⟩
    · rw [owns.root, fresh]
    · rw [nodes index inside]
      exact congrArg (fun node : Node => { node with parent := some slices.length }) (blocked.core index inside)
    · rw [exits index inside, ← blocked.successors index inside, nodes index inside]
    · intro id member target goes
      rw [Node.target?, Node.last?, Node.instructions, nodes id (List.mem_range.mp member)] at goes
      rw [blockAt?_congr starts]
      exact blocked.lands id member target goes
  have claims : owned.claims = session.claims := by
    rw [frame, isListed, isMade]
    rfl
  have isFragments : owned.fragments = [slices.length] := by rw [entered.whole]
  refine .getContext_bind ?_
  rw [isFragments]
  have confines : Reaches (fun _ => mayFail) ([slices.length].forM (confine slices.length)) owned fun _ next =>
      next = owned := by
    refine .forM (· = owned) rfl fun fragment isFragment next same => ?_
    rw [List.mem_singleton.mp isFragment, same]
    refine reaches_confine fun block member id isNext => ?_
    rw [FlowGraph.fragmentBlocks_eq, entered.root] at member
    have inside : block < slices.length := List.mem_range.mp member
    rw [nodes block inside] at isNext
    have bound : id < slices.length := blocked.size ▸ agree.target_lt isNext
    rw [nodes id bound]
  exact .bind confines fun _ next same => .pure (same ▸ ⟨claims, entered⟩)

/-- The addresses that a block leads to: that of the next block, and that of its branch. -/
theorem Context.Entered.starts {code : Code} {context : Context}
    (entered : context.Entered slices code) {index : Nat} (inside : index < slices.length) :
    (context.graph.node index).successors.map (fun id => (context.graph.node id).start) =
      (if fallsThrough (context.graph.node index) then
        ((List.range slices.length)[index + 1]?.map fun id => (context.graph.node id).start).toList else []) ++
      (context.graph.node index).target?.toList := by
  rw [entered.successors index inside, exits, List.map_append]
  congr 1
  · split
    · cases (List.range slices.length)[index + 1]? <;> rfl
    · rfl
  · cases goes : (context.graph.node index).target? with
    | none => rfl
    | some target =>
      obtain ⟨destination, found⟩ := entered.lands index (List.mem_range.mpr inside) target goes
      have start : (context.graph.node destination).start = target := by simpa using List.find?_some found
      simp [found, start]

theorem Context.Entered.closed {code : Code} {context : Context}
    (entered : context.Entered slices code) : context.graph.Closed := by
  intro id target member
  have known : id < slices.length := by
    have bound := lt_size_of_mem_successors member
    rw [entered.size] at bound
    refine Nat.lt_of_le_of_ne (Nat.le_of_lt_succ bound) ?_
    rintro rfl
    rw [entered.root] at member
    cases member
  have level (index : Nat) (inside : index < slices.length) :
      (context.graph.node index).parent = some slices.length := by
    simpa only [Node.core] using congrArg Node.parent (entered.core index inside)
  have among : target ∈ List.range slices.length := by
    rw [entered.successors id known, exits] at member
    rcases List.mem_append.mp member with falls | goes
    · split at falls
      · exact List.mem_of_getElem? (Option.mem_toList.mp falls)
      · cases falls
    · obtain ⟨address, _, found⟩ := Option.bind_eq_some_iff.mp (Option.mem_toList.mp goes)
      exact List.mem_of_find?_eq_some found
  rw [level id known, level target (List.mem_range.mp among)]

end Recovery

/-! Structures that stand for parts of a program -/

section

variable {κ : Type} [DecidableEq κ] {built : List (κ × NodeId)}

def nodeOf (built : List (κ × NodeId)) (key : κ) : NodeId := ((built.find? (·.1 = key)).map (·.2)).getD 0

theorem nodeOf_eq (nodup : (built.map (·.1)).Nodup) {entry : κ × NodeId} (member : entry ∈ built) :
    nodeOf built entry.1 = entry.2 := by
  unfold nodeOf
  cases found : built.find? (·.1 = entry.1) with
  | none => exact absurd (List.find?_eq_none.mp found entry member) (by simp)
  | some other =>
    have same : other.1 = entry.1 := by simpa using List.find?_some found
    have isEntry := List.inj_on_of_nodup_map nodup (List.mem_of_find?_eq_some found) member same
    rw [isEntry]
    rfl

theorem map_nodeOf (nodup : (built.map (·.1)).Nodup) : (built.map (·.1)).map (nodeOf built) = built.map (·.2) := by
  rw [List.map_map]
  exact List.map_congr_left fun entry member => nodeOf_eq nodup member

end

/-! Passes that succeed -/

theorem reaches_runPasses_cons {pass : Pass} {changed : List String}
    {middle : Bool → Session → Prop} (onward : options.dumpAfter = none)
    (first : Reaches (fun _ => mayFail) (applyPass source options.verify pass) session middle)
    (second : ∀ did changed next, middle did next →
      Reaches (fun _ => mayFail) (runPasses source options changed rest) next post) :
    Reaches (fun _ => mayFail) (runPasses source options changed (pass :: rest)) session post := by
  refine .bind first fun did next known => ?_
  rw [onward, if_neg (by simp)]
  exact second did _ next known

theorem reaches_layout (ordered : InOrder source.code.instructions)
    (childless : source.code.children = []) (cuts : cutFailure? source.code = none)
    (isSlices : sliceAt (cutPoints source.code) source.code.instructions = slices)
    (onward : options.dumpAfter = none)
    (second : ∀ changed next, next.Tidied True → next.claims = {} → next.context.Entered slices source.code →
      Reaches (fun _ => mayFail) (runPasses source options changed rest) next post) :
    Reaches (fun _ => mayFail) (runPasses source options [] (.blocks :: .fragments :: rest)) {} post := by
  have cutting : Revises .full (Pass.blocks.apply source) {} fun _ _ => True :=
    .any (revises_buildBlocks trivial)
  have blocks : Reaches (fun _ => mayFail) (Pass.blocks.apply source) {} fun _ next =>
      next.claims = {} ∧ next.context.Blocked slices ∧ next.graph.Mutual := by
    refine .imp ((reaches_buildBlocks ordered.rising rfl fun _ => cuts).and_returns
      (.of_revises cutting Session.sound_empty)) ?_
    exact fun _ _ ⟨⟨_, claims, blocked⟩, sound, _⟩ => ⟨claims, isSlices ▸ blocked, sound.graph.edges⟩
  have blocks := Reaches.applyPass (fun context claims =>
    claims = {} ∧ context.Blocked slices ∧ context.graph.Mutual) blocks (fun _ _ _ known => known.2.2) options.verify
  refine reaches_runPasses_cons onward ((blocks.and_returns (returns_tidied ordered options.verify)).and_returns
    (.of_revises (.applyPass (fun _ _ => True) cutting _) Session.sound_empty)) ?_
  rintro _ changed cut ⟨⟨⟨claims, blocked, agree⟩, layout⟩, sound, _⟩
  have fragments : Reaches (fun _ => mayFail) (Pass.fragments.apply source) cut fun _ next =>
      next.claims = {} ∧ next.context.Entered slices source.code ∧ next.graph.Mutual := by
    refine .imp ((reaches_buildFragments childless blocked agree).and_returns
      (.of_revises revises_buildFragments sound)) ?_
    exact fun _ _ ⟨⟨same, entered⟩, sound, _⟩ => ⟨same.trans claims, entered, sound.graph.edges⟩
  refine reaches_runPasses_cons onward ((Reaches.applyPass (fun context claims =>
    claims = {} ∧ context.Entered slices source.code ∧ context.graph.Mutual) fragments
    (fun _ _ _ known => known.2.2) options.verify).and_returns layout) ?_
  rintro _ changed laid ⟨⟨claims, entered, _⟩, tidied⟩
  exact second changed laid (tidied.of_closed entered.closed) claims entered

end Structuring
