import Structuring.Proofs.Fanout

/-! Where the cases of a switch lead.

Right after a switch is inserted, every label that its dispatch asked for is there, and from it one comes
to the destination by way of labels only. What the switch takes in may hold cases of another one.
-/

namespace Structuring

open Bytecode Recovery FlowGraph

/-- Where one comes to from a block that ends in a jump or in no branch. -/
theorem target?_eq_jumpTarget? {node : Node} (only : BareBut .b node.instructions) :
    node.target? = node.jumpTarget? := by
  unfold Node.target? Node.jumpTarget? Node.targetOf? Node.last?
  cases isLast : node.instructions.getLast? with
  | none => rfl
  | some inst =>
    have isJump := only.2 inst isLast
    simp only [Option.bind_some, Instruction.targetOf?]
    cases isTarget : inst.branchTarget? with
    | none => simp
    | some target => simp [isJump (by simp [Instruction.isBranch, isTarget])]

namespace Recovery

/-- The labels that a dispatch asks for, in its order. -/
def SwitchLocation.entries (location : SwitchLocation) (graph : FlowGraph) : List (NodeId × Bool) :=
  location.compareBlocks.map (caseEntry graph) ++ defaultEntry graph location

/-- A switch has been inserted as the node after the old ones, with a case jump for each comparison and groups
of labels, one for each destination. -/
structure SwitchLocation.Cased (location : SwitchLocation) (before after : FlowGraph) (jumps : List NodeId)
    (groups : List (Destination × List NodeId)) : Prop where
  ends : (before.node location.jumpBlock).target? = (before.node location.jumpBlock).jumpTarget?
  taken : ∀ compare ∈ location.compareBlocks, ∃ following,
    (before.node compare).successors = [following, (caseEntry before compare).1]
  grouped : Grouped (location.entries before) (groups.map (·.1))
  sorted : (groups.map (·.1)).Pairwise fun first second =>
    (before.node first.target).start ≤ (before.node second.target).start
  isJump : jumps.map (fun id => ((after.node id).kind, (after.node id).parent)) =
    location.compareBlocks.map fun _ => (.caseJump, some before.size)
  isLabel : ∀ group ∈ groups, group.2.map (fun id => ((after.node id).kind, (after.node id).parent)) =
    group.1.labels.map fun isDefault => (.caseLabel isDefault, some before.size)
  made : jumps ++ groups.flatMap (·.2) = List.range' (before.size + 1) (after.size - (before.size + 1))
  others : ∀ id, IsCase after before.size id → id ∈ jumps ++ groups.flatMap (·.2) ∨
    (before.node id).parent = (before.node location.jumpBlock).parent
  inner : ∀ group ∈ groups, location.leaves before group = false → Chains after (some group.1.target) group.2
  outer : Chains after none (labelsAt (location.leaves before) groups)
  isSwitch : ∃ cases, (after.node before.size).kind = .switch
    { cases
      body := (labelsAt (!location.leaves before ·) groups).head?
      endCases := (labelsAt (location.leaves before) groups).head? }

theorem CaseSteps.keeps {switch : NodeId} {blocks aims : NodeId → Prop} {graph next : FlowGraph}
    (steps : CaseSteps switch blocks aims graph next) : Keeps graph next := by
  induction steps with
  | refl => exact .refl _
  | tail _ step ih =>
    refine ih.trans ?_
    cases step with
    | cut listed opcode => exact .dropBranch _ _ _
    | make address isCase => exact .addNode _ _ _ _ _
    | link leaves idle enters => exact .addEdge _ _ _
    | move aimed isCase => exact .of_sameCores (sameCores_movePredecessors _ _ _)

theorem labelsAt_congr {leaves other : Destination × List NodeId → Bool}
    {groups : List (Destination × List NodeId)} (same : ∀ group ∈ groups, leaves group = other group) :
    labelsAt leaves groups = labelsAt other groups := by
  rw [labelsAt, labelsAt, List.filter_congr same]

theorem eq_of_becomes {kind other : Kind} (isCase : kind = .caseJump ∨ ∃ isDefault, kind = .caseLabel isDefault)
    (becomes : kind.Becomes other) : other = kind := by
  rcases isCase with rfl | ⟨_, rfl⟩ <;> cases becomes <;> rfl

theorem Insertion.Follows.cased {rights : Rights} {location : SwitchLocation} {session : Session}
    {insertion : Insertion} (follows : insertion.Follows rights location session) (sound : session.Sound)
    (known : ∀ id ∈ location.nodes, id < session.graph.size)
    (apart : location.jumpBlock ∉ location.compareBlocks)
    (only : BareBut .b (session.graph.node location.jumpBlock).instructions) :
    location.Cased session.graph insertion.closed.graph
      (List.range' (session.graph.size + 1) location.compareBlocks.length) insertion.groups := by
  have dispatched := follows.dispatched
  have isPlaced := follows.placed
  have madeSize : insertion.made.size = session.graph.size + 1 := by rw [follows.made, size_addNode]
  have droppedSize : insertion.dropped.size = session.graph.size + 1 + location.compareBlocks.length := by
    rw [follows.dropped, size_dropBranch, dispatched.size, madeSize]
  have keeps : Keeps session.graph insertion.placed.graph := by
    refine .trans (.trans ?_ dispatched.steps.keeps) (.trans ?_ follows.steps.keeps)
    · exact follows.made ▸ .addNode _ _ _ _ _
    · exact follows.dropped ▸ .dropBranch _ _ _
  have toMade (id : NodeId) (bound : id < session.graph.size) :
      Untouched session.graph insertion.made id := follows.made ▸ .addNode bound _ _ _ _
  have isCompare (block : NodeId) (member : block ∈ location.compareBlocks) :
      block < session.graph.size := known block (by simp [SwitchLocation.nodes, member])
  have jumpBound : location.jumpBlock < session.graph.size := known _ (by simp [SwitchLocation.nodes])
  have toJumped : Untouched session.graph insertion.jumped location.jumpBlock :=
    (toMade _ jumpBound).trans (dispatched.others _ (madeSize ▸ Nat.lt_succ_of_lt jumpBound) apart)
  have grouped : Grouped (location.entries session.graph) (insertion.groups.map (·.1)) := by
    have entries : location.compareBlocks.map (caseEntry insertion.made) =
        location.compareBlocks.map (caseEntry session.graph) :=
      List.map_congr_left fun block member => (toMade block (isCompare block member)).caseEntry_eq
    rw [SwitchLocation.entries, ← entries, ← toJumped.defaultEntry_eq]
    exact follows.grouped
  have targetBound (destination : Destination) (member : destination ∈ insertion.groups.map (·.1)) :
      destination.target < session.graph.size := by
    rcases dispatched.mem_successors follows.grouped member with ⟨compare, listed, edge⟩ | edge
    · rw [(toMade compare (isCompare compare listed)).successors] at edge
      exact sound.graph.edges.target_lt edge
    · rw [toJumped.successors] at edge
      exact sound.graph.edges.target_lt edge
  have starts (destination : Destination) (member : destination ∈ insertion.groups.map (·.1)) :
      (insertion.dropped.node destination.target).start = (session.graph.node destination.target).start := by
    have bound := targetBound destination member
    rw [← keeps.start _ bound]
    exact (congrArg Node.start (isPlaced.cores _ (Nat.lt_of_lt_of_le bound (by omega))) :).symm
  have leaves (group : Destination × List NodeId) (member : group ∈ insertion.groups) :
      location.leaves insertion.dropped group = location.leaves session.graph group := by
    rw [SwitchLocation.leaves, SwitchLocation.leaves, starts _ (List.mem_map_of_mem member)]
  have outside := labelsAt_congr leaves
  have isLevel : insertion.level ≠ some insertion.switch := fun same => by
    have owner := sound.graph.parents location.jumpBlock insertion.switch (follows.isLevel.trans same)
    exact Nat.ne_of_lt owner.lt follows.isNew
  have casesBound := sound.graph.climb_lt (known _ (by simp [SwitchLocation.nodes])) follows.isCases
  have isSwitch : (insertion.placed.graph.node insertion.switch).kind = _ := (congrArg Node.kind follows.core :)
  have closes := closes_of_shut (Owner.lt (.of_kind isSwitch rfl)) (keeps.lt casesBound)
    (congrArg Node.parent follows.core :) isLevel follows.closed follows.shut
  -- Cases are still what they were when the switch closes, and still inside.
  have stays (id : NodeId) (isCase : IsCase insertion.placed.graph insertion.switch id) :
      (insertion.closed.graph.node id).kind = (insertion.placed.graph.node id).kind ∧
        (insertion.closed.graph.node id).parent = (insertion.placed.graph.node id).parent := by
    have bound := lt_size_of_parent isCase.inside
    constructor
    · exact eq_of_becomes isCase.kind (follows.toClosed.grows.nodes id bound).kind
    · rw [closes.parents id bound, parentIn, isCase.inside]
      split <;> rfl
  have leads {onward : Option NodeId} {ids : List NodeId} (chain : Chains insertion.placed.graph onward ids)
      (among : ∀ id ∈ ids, id ∈ insertion.groups.flatMap (·.2)) :
      Chains insertion.closed.graph onward ids :=
    chain.congr fun id member => closes.successors id (isPlaced.bounds (among id member)).2
      (isPlaced.isCase (among id member)).inside
  have jump (id : NodeId) (above : session.graph.size < id) (below : id < insertion.dropped.size) :
      (insertion.placed.graph.node id).kind = .caseJump ∧
        (insertion.placed.graph.node id).parent = some insertion.switch := by
    have core := isPlaced.cores id below
    rw [follows.dropped, (Untouched.dropBranch (Nat.ne_of_lt (Nat.lt_trans jumpBound above)) _ _).core] at core
    have isJump := dispatched.jumps id (madeSize ▸ above) (by rwa [follows.dropped, size_dropBranch] at below)
    exact ⟨(congrArg Node.kind core :).trans isJump.1, (congrArg Node.parent core :).trans isJump.2⟩
  have made : List.range' (session.graph.size + 1) location.compareBlocks.length ++
      insertion.groups.flatMap (·.2) = List.range' (session.graph.size + 1)
        (insertion.closed.graph.size - (session.graph.size + 1)) := by
    have larger := isPlaced.larger
    rw [isPlaced.ids, droppedSize, List.range'_append_1, closes.size]
    congr 1
    omega
  constructor
  case ends => exact target?_eq_jumpTarget? only
  case taken =>
    intro compare member
    have same := toMade compare (isCompare compare member)
    rw [← same.successors, ← same.caseEntry_eq]
    exact dispatched.taken compare member
  case grouped => exact grouped
  case sorted =>
    refine follows.sorted.imp_of_mem fun one two order => ?_
    rwa [starts _ one, starts _ two] at order
  case isJump =>
    have all (id : NodeId) (member : id ∈ List.range' (session.graph.size + 1) location.compareBlocks.length) :
        ((insertion.closed.graph.node id).kind, (insertion.closed.graph.node id).parent) =
          (.caseJump, some session.graph.size) := by
      obtain ⟨above, below⟩ := List.mem_range'_1.mp member
      obtain ⟨isKind, inside⟩ := jump id above (droppedSize ▸ below)
      obtain ⟨kind, parent⟩ := stays id ⟨inside, .inl isKind⟩
      rw [kind, parent, isKind, inside, follows.isNew]
    rw [List.map_congr_left all, List.map_const', List.map_const', List.length_range']
  case isLabel =>
    intro group member
    rw [← follows.isNew, ← isPlaced.made group member]
    refine List.map_congr_left fun id among => ?_
    obtain ⟨kind, parent⟩ := stays id (isPlaced.isCase (List.mem_flatMap_of_mem member among))
    rw [kind, parent]
  case made => exact made
  case others =>
    intro id isCase
    rcases Nat.lt_trichotomy id session.graph.size with old | rfl | new
    · right
      have parent := isCase.inside
      rw [closes.parents id (keeps.lt old), parentIn, keeps.parent id old] at parent
      split at parent
      · next taken => exact taken.2.1.trans follows.isLevel.symm
      · exact absurd (sound.graph.parents id _ parent).lt (Nat.lt_irrefl _)
    · have parent := isCase.inside
      rw [← follows.isNew, closes.parents _ (Owner.lt (.of_kind isSwitch rfl)), parentIn,
        if_neg fun taken => taken.1 rfl] at parent
      exact absurd ((congrArg Node.parent follows.core :).symm.trans parent) isLevel
    · left
      have bound := lt_size_of_parent isCase.inside
      rw [made, List.mem_range'_1, Nat.add_sub_cancel' (Nat.le_trans new (Nat.le_of_lt bound))]
      exact ⟨new, bound⟩
  case inner =>
    intro group member stays
    rw [← leaves group member] at stays
    exact leads (isPlaced.inner group member stays) fun id among => List.mem_flatMap_of_mem member among
  case outer => exact outside ▸ leads isPlaced.outer fun id => mem_of_labelsAt
  case isSwitch =>
    refine ⟨insertion.cases, ?_⟩
    have apart : (insertion.placed.graph.node insertion.cases).parent ≠ some insertion.switch := by
      rwa [keeps.parent _ casesBound, parent_climb follows.isCases]
    rw [← follows.isNew, closes.isSwitch apart, LabelPlacement.toSwitch, isPlaced.body, isPlaced.first, outside,
      labelsAt_congr fun group member => congrArg not (leaves group member)]

end Recovery

/-- A run comes to a switch, and inserts it after those that were located before it. -/
def RunInserts (source : Source) (verify : Bool) (location : SwitchLocation) (before after : Session) : Prop :=
  ∃ blocks laid located looped branched done rest, Ran source verify .blocks {} blocks ∧
    Ran source verify .fragments blocks laid ∧ Ran source verify .switchLocate laid located ∧
    Ran source verify .loops located looped ∧ Ran source verify .branches looped branched ∧
    branched.claims.switches = done ++ location :: rest ∧
    (done.forM (insertSwitch source)).run
      { branched with claims := { branched.claims with switches := [] } } = .ok () before ∧
    (insertSwitch source location).run before = .ok () after

/-- Right after a switch is inserted, its labels lead where its dispatch did. They are all there is of
case jumps and labels in it, unless others were on the level of the dispatch. -/
theorem cases_lead_of_insertion {name listing : String} {code : Code} {features : Features} {verify : Bool}
    {location : SwitchLocation} {before after : Session} (assembled : Assembly.assemble name listing = .ok code)
    (comes : RunInserts ⟨code, features⟩ verify location before after) :
    ∃ jumps groups, location.Cased before.graph after.graph jumps groups := by
  obtain ⟨blocks, laid, located, looped, branched, done, rest, cuts, founds, locates, loops, branches, isAll,
    earlier, inserts⟩ := comes
  have opened := opened_of_ran (Assembly.inOrder_of_assemble assembled) cuts founds
  obtain ⟨locatedSound, sameContext, locatedIn⟩ := locatedIn_of_ran opened locates
  obtain ⟨loopedSound, toLooped, loopedClaims⟩ := looped_of_ran locatedSound loops
  obtain ⟨sound, toBranched, branchedClaims⟩ := branched_of_ran loopedSound branches
  have toBranched := toLooped.trans toBranched
  have clears : Revises Rights.full.settled (modifyClaims ({ · with switches := [] })) branched _ :=
    .clearSwitches trivial
  obtain ⟨startSound, toStart, -⟩ := (Reaches.of_revises clears sound).run rfl
  have inserted : Revises Rights.full.settled (done.forM (insertSwitch ⟨code, features⟩)) _ _ :=
    .forM (fun _ _ => True) (fun _ _ _ _ _ _ _ => trivial) fun earlier among next toNext =>
      (revises_insertSwitch trivial fun id listed => (toStart.trans toNext).lt
        (sound.claims id (Claims.mem_nodes (isAll ▸ List.mem_append_left _ among) listed))).any
  obtain ⟨beforeSound, toBefore, -⟩ := (Reaches.of_revises inserted startSound).run earlier
  have toBefore := toStart.trans toBefore
  have member : location ∈ branched.claims.switches := isAll ▸ List.mem_append_right _ (.head _)
  have bounds := fun id among => toBefore.lt (sound.claims id (Claims.mem_nodes member among))
  rw [branchedClaims, loopedClaims] at member
  have isLocated := locatedIn.located location member
  obtain ⟨-, -, -, insertion, follows, same⟩ := (Reaches.of_revises
    (revises_insertSwitch trivial bounds : Revises Rights.full.settled _ _ _) beforeSound).run inserts
  refine ⟨_, insertion.groups, same ▸ follows.cased beforeSound bounds ?_ ?_⟩
  · intro among
    obtain ⟨before, later, isBlocks, compares⟩ := isLocated.found.compares
    obtain ⟨earlier, within, rfl, sublist⟩ := compares.sublist
    have increasing := opened.increasing location.fragment
    rw [show fragmentBlocks _ location.fragment = _ from isBlocks] at increasing
    exact Nat.lt_irrefl _ ((List.pairwise_append.mp increasing).2.2 _
      (List.mem_append_right _ (sublist.subset among)) _ (.head _))
  · have jumpBound := isLocated.nodes _ (by simp [SwitchLocation.nodes] : location.jumpBlock ∈ location.nodes)
    have grows : Grows laid.graph before.graph := by
      rw [← sameContext]
      exact (toBranched.trans toBefore).grows
    exact grows.bareBut (bareBut_of_isLoneJump isLocated.found.jumps) jumpBound

def caseJumpsIn (graph : FlowGraph) (switch : NodeId) : List NodeId :=
  (List.range graph.size).filter fun id =>
    (graph.node id).kind = .caseJump ∧ (graph.node id).parent = some switch

/-- The second of two switches is inserted, and has two jumps for its one comparison. -/
theorem runInserts_splitDispatch :
    ∃ code location before after, Assembly.assemble "entry" splitDispatch = .ok code ∧
      RunInserts ⟨code, .all⟩ true location before after ∧ location.compareBlocks.length = 1 ∧
      (caseJumpsIn after.graph before.graph.size).length = 2 := by
  obtain ⟨code, ⟨switches, before⟩, after, assembled, done, isTwo, few, many⟩ :=
    exists_of_evaluates "entry" splitDispatch
      (fun code => (applyPass ⟨code, .all⟩ true .blocks >>= fun _ =>
        applyPass ⟨code, .all⟩ true .fragments >>= fun _ =>
        applyPass ⟨code, .all⟩ true .switchLocate >>= fun _ =>
        applyPass ⟨code, .all⟩ true .loops >>= fun _ => applyPass ⟨code, .all⟩ true .branches >>= fun _ =>
        getClaims >>= fun claims => modifyClaims ({ · with switches := [] }) >>= fun _ =>
        (claims.switches.take 1).forM (insertSwitch ⟨code, .all⟩) >>= fun _ => get >>= fun before =>
        (claims.switches.drop 1).forM (insertSwitch ⟨code, .all⟩) >>= fun _ =>
        pure (claims.switches, before) : Recover (List SwitchLocation × Session)).run {})
      (fun _ value after => value.1.length = 2 ∧ (value.1.drop 1).map (·.compareBlocks.length) = [1] ∧
        (caseJumpsIn after.graph value.2.graph.size).length = 2)
      (by decide +kernel)
  obtain ⟨_, blocks, cuts, done⟩ := run_bind_eq_ok.mp done
  obtain ⟨_, laid, founds, done⟩ := run_bind_eq_ok.mp done
  obtain ⟨_, located, locates, done⟩ := run_bind_eq_ok.mp done
  obtain ⟨_, looped, loops, done⟩ := run_bind_eq_ok.mp done
  obtain ⟨_, branched, branches, done⟩ := run_bind_eq_ok.mp done
  obtain ⟨claims, _, ⟨⟩, done⟩ := run_bind_eq_ok.mp done
  obtain ⟨_, _, ⟨⟩, done⟩ := run_bind_eq_ok.mp done
  obtain ⟨_, _, earlier, done⟩ := run_bind_eq_ok.mp done
  obtain ⟨_, _, ⟨⟩, done⟩ := run_bind_eq_ok.mp done
  obtain ⟨_, _, inserts, ⟨⟩⟩ := run_bind_eq_ok.mp done
  obtain ⟨first, second, isAll⟩ := List.length_eq_two.mp isTwo
  dsimp only at isAll few
  rw [isAll] at earlier inserts few
  obtain ⟨_, _, inserts, ⟨⟩⟩ := run_bind_eq_ok.mp inserts
  exact ⟨code, second, before, after, assembled, ⟨blocks, laid, located, looped, branched, [first], [],
    ⟨_, cuts⟩, ⟨_, founds⟩, ⟨_, locates⟩, ⟨_, loops⟩, ⟨_, branches⟩, isAll, earlier, inserts⟩,
    List.singleton_inj.mp few, many⟩

theorem cases_lead_of_insertion_splitDispatch :
    ∃ code location before after, Assembly.assemble "entry" splitDispatch = .ok code ∧
      RunInserts ⟨code, .all⟩ true location before after ∧
      ∃ jumps groups, location.Cased before.graph after.graph jumps groups := by
  obtain ⟨code, location, before, after, assembled, comes, -⟩ := runInserts_splitDispatch
  exact ⟨code, location, before, after, assembled, comes, cases_lead_of_insertion assembled comes⟩

/-- Not every switch that is inserted has just one case jump for each comparison. -/
theorem not_one_jump_per_compare :
    ¬∀ (name listing : String) (code : Code) (features : Features) (verify : Bool) (location : SwitchLocation)
      (before after : Session), Assembly.assemble name listing = .ok code →
      RunInserts ⟨code, features⟩ verify location before after →
      (caseJumpsIn after.graph before.graph.size).length = location.compareBlocks.length := by
  intro always
  obtain ⟨code, location, before, after, assembled, comes, one, two⟩ := runInserts_splitDispatch
  have same := always _ _ code .all true location before after assembled comes
  rw [one, two] at same
  exact absurd same (by decide)

end Structuring
