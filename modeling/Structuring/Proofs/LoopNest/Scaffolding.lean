import Structuring.Proofs.LoopNest.Insertion

/-! Scaffolding taken out of blocks.

Whatever its shape, a loop loses its branches by a few edits, each to the instructions of one block
and to the edges that leave it. What is followed is therefore only which blocks are done.
-/

namespace Structuring

open Bytecode Recovery

namespace FlowGraph

variable {graph : FlowGraph} {id : NodeId}

theorem kind_mapInstructions_self {parts : Block} (isBlock : (graph.node id).kind = .block parts)
    (f : List Instruction → List Instruction) :
    ((graph.mapInstructions id f).node id).kind =
      .block { parts with instructions := f parts.instructions } := by
  have bound : id < graph.size := lt_size_of_isBlock (by rw [isBlock]; rfl)
  rw [mapInstructions, node_modify, if_pos ⟨rfl, bound⟩, Node.mapInstructions, isBlock]

/-- Of two edges the second one goes, also if both lead to the same node. -/
theorem successors_dropSecondEdge {first second : NodeId}
    (two : (graph.node id).successors = [first, second]) (other : NodeId) :
    ((graph.dropSecondEdge id).node other).successors =
      if id = other then [first] else (graph.node other).successors := by
  have erased : [first, second].erase second = [first] := by
    by_cases same : first = second
    · simp [same]
    · simp [same]
  have isSecond : (graph.node id).successors[1]? = some second := by rw [two]; rfl
  rw [dropSecondEdge, isSecond]
  dsimp only
  rw [successors_removeEdge, two, erased]

end FlowGraph

namespace LoopNest

open FlowGraph

variable {typed : Bool} {loops : List PlacedLoop} {blocks : List BlockPlan} {finish index other : Nat}
  {loop : PlacedLoop} {built : List (PlacedLoop × NodeId)} {gone : List PlacedLoop} {ending : List Instruction}
  {role : Role} {discard : Instruction} {original graph next : FlowGraph} {done : List Nat}

def Bears (blocks : List BlockPlan) (loop : PlacedLoop) (role : Role) (index : Nat) : Prop :=
  ∃ (inside : index < blocks.length) (ending : List Instruction),
    blocks[index].scaffold = some ⟨loop, role, ending⟩

theorem Bears.role_eq {different : Role} (first : Bears blocks loop role index)
    (second : Bears blocks loop different index) : role = different := by
  obtain ⟨_, _, isFirst⟩ := first
  obtain ⟨_, _, isSecond⟩ := second
  cases isFirst.symm.trans isSecond
  rfl

theorem Bears.ne {different : Role} (first : Bears blocks loop role index)
    (second : Bears blocks loop different other) (apart : role ≠ different) : index ≠ other := by
  rintro rfl
  exact apart (first.role_eq second)

/-! What the branches of one loop leave behind -/

namespace Arranged

/-- A block does not both end in a branch of a loop and discard its counter. -/
theorem lead_ne_scaffold (arranged : Arranged typed loops blocks finish) (inside : index < blocks.length)
    {scaffold : Scaffold} (isScaffold : blocks[index].scaffold = some scaffold) {other : PlacedLoop}
    (isLead : blocks[index].lead = some (other, discard)) : scaffold.loop ≠ other := by
  rintro rfl
  have fits := arranged.fits _ (List.getElem_mem inside)
  obtain ⟨member, _, holds⟩ := fits.scaffold scaffold isScaffold
  obtain ⟨_, _, start, _⟩ := fits.lead _ discard isLead
  have room := arranged.laminar.room _ member
  have grows := (arranged.adjacent index (arranged.next_of_scaffold inside isScaffold)).1
  cases isRole : scaffold.role with
  | prelude =>
    have stop : blocks[index].stop = scaffold.loop.start := by rwa [isRole] at holds
    omega
  | condition =>
    have begins : blocks[index].start = scaffold.loop.start := by rwa [isRole] at holds
    omega
  | tail =>
    have stop : blocks[index].stop = scaffold.loop.stop := by
      rw [isRole] at holds
      exact holds.1
    omega

theorem leading_append (block : BlockPlan)
    (other : ∀ found discard, block.lead = some (found, discard) → found ≠ loop) :
    block.leading (gone ++ [loop]) = block.leading gone := by
  unfold BlockPlan.leading
  split
  · next found discard isLead => simp [other found discard isLead]
  · rfl

theorem ending_append (block : BlockPlan)
    (other : ∀ scaffold, block.scaffold = some scaffold → scaffold.loop ≠ loop) :
    block.ending (gone ++ [loop]) = block.ending gone := by
  unfold BlockPlan.ending
  split
  · next scaffold isScaffold => simp [other scaffold isScaffold]
  · rfl

theorem remains_other {block : BlockPlan}
    (noLead : ∀ found discard, block.lead = some (found, discard) → found ≠ loop)
    (noScaffold : ∀ scaffold, block.scaffold = some scaffold → scaffold.loop ≠ loop) :
    block.remains (gone ++ [loop]) = block.remains gone := by
  rw [BlockPlan.remains, BlockPlan.remains, leading_append block noLead, ending_append block noScaffold]

theorem remains_scaffold (arranged : Arranged typed loops blocks finish) (inside : index < blocks.length)
    (isScaffold : blocks[index].scaffold = some ⟨loop, role, ending⟩) (undone : loop ∉ gone) :
    blocks[index].remains gone = blocks[index].remains (gone ++ [loop]) ++ ending := by
  have noEnding : blocks[index].ending (gone ++ [loop]) = [] := by
    unfold BlockPlan.ending
    rw [isScaffold]
    exact if_pos (List.mem_append_right _ (.head _))
  rw [BlockPlan.remains, BlockPlan.remains, BlockPlan.Fits.ending_eq isScaffold undone, noEnding,
    leading_append _ fun found discard isLead same =>
      arranged.lead_ne_scaffold inside isScaffold isLead same.symm, List.append_nil]

theorem remains_lead (arranged : Arranged typed loops blocks finish) (inside : index < blocks.length)
    (isLead : blocks[index].lead = some (loop, discard)) (undone : loop ∉ gone) :
    blocks[index].remains gone = discard :: blocks[index].remains (gone ++ [loop]) := by
  have leads : blocks[index].leading gone = [discard] := by
    unfold BlockPlan.leading
    rw [isLead]
    exact if_neg undone
  have noLead : blocks[index].leading (gone ++ [loop]) = [] := by
    unfold BlockPlan.leading
    rw [isLead]
    exact if_pos (List.mem_append_right _ (.head _))
  rw [BlockPlan.remains, BlockPlan.remains, leads, noLead,
    ending_append _ fun scaffold isScaffold => arranged.lead_ne_scaffold inside isScaffold isLead]
  rfl

end Arranged

def BlockPlan.goal (gone : List PlacedLoop) (block : BlockPlan) : Option Nat :=
  block.scaffold.bind fun scaffold =>
    if scaffold.loop ∈ gone then none else (branchOf scaffold.loop scaffold.role).map (·.2)

theorem BlockPlan.Fits.target?_remains {block : BlockPlan} (fits : block.Fits typed loops finish)
    (gone : List PlacedLoop) : (block.remains gone).getLast?.bind (·.branchTarget?) = block.goal gone := by
  cases isTarget : (block.remains gone).getLast?.bind (·.branchTarget?) with
  | some target =>
    obtain ⟨inst, isLast, goes⟩ := Option.bind_eq_some_iff.mp isTarget
    obtain ⟨scaffold, opcode, isScaffold, undone, _, _, isBranch⟩ := fits.scaffold_of_target isLast goes
    simp [goal, isScaffold, undone, isBranch]
  | none =>
    refine (Option.eq_none_iff_forall_ne_some.mpr fun target goes => ?_).symm
    obtain ⟨scaffold, isScaffold, goes⟩ := Option.bind_eq_some_iff.mp goes
    split at goes
    · cases goes
    · next undone =>
      obtain ⟨_, isEnding, _⟩ := fits.scaffold scaffold isScaffold
      obtain ⟨last, _, _, isLast, _, _, goes⟩ := isEnding.branchTarget?
      rw [remains, ending_eq isScaffold undone, List.getLast?_append, isLast] at isTarget
      exact absurd (isTarget.symm.trans goes) (by simp)

/-! Blocks that are done -/

structure Trimmed (blocks : List BlockPlan) (gone : List PlacedLoop) (loop : PlacedLoop) (original : FlowGraph)
    (done : List Nat) (graph : FlowGraph) : Prop where
  keeps : Keeps original graph
  size : graph.size = original.size
  structures : ∀ id, blocks.length ≤ id → (graph.node id).kind = (original.node id).kind
  kinds : ∀ (index : Nat) (inside : index < blocks.length), (graph.node index).kind =
    .block ⟨index, blocks[index].remains (if index ∈ done then gone ++ [loop] else gone)⟩
  others : ∀ id, (∀ role, Bears blocks loop role id → id ∉ done) →
    (graph.node id).successors = (original.node id).successors
  own : ∀ id ∈ done, ∀ role, Bears blocks loop role id → ∀ target ∈ (graph.node id).successors,
    role ≠ .tail ∧ target < original.size ∧ (original.node target).start = (original.node id).stop

theorem Staged.instructions (staged : Staged blocks built gone graph) (inside : index < blocks.length) :
    (graph.node index).instructions = blocks[index].remains gone := by
  rw [Node.instructions, staged.kinds index inside]

theorem Staged.trimmed (staged : Staged blocks built gone graph) (loop : PlacedLoop) :
    Trimmed blocks gone loop graph [] graph :=
  ⟨.refl graph, rfl, fun _ _ => rfl, staged.kinds, fun _ _ => rfl, nofun⟩

namespace Trimmed

section

variable (trimmed : Trimmed blocks gone loop original done graph)

include trimmed

theorem instructions (inside : index < blocks.length) (undone : index ∉ done) :
    (graph.node index).instructions = blocks[index].remains gone := by
  rw [Node.instructions, trimmed.kinds index inside, if_neg undone]

theorem fragmentBlocks_eq (id : NodeId) (outside : blocks.length ≤ id) :
    fragmentBlocks graph id = fragmentBlocks original id := by
  rw [FlowGraph.fragmentBlocks_eq, trimmed.structures id outside, ← FlowGraph.fragmentBlocks_eq]

theorem trim (inside : index < blocks.length) (undone : index ∉ done) {f : List Instruction → List Instruction}
    (rest : f (blocks[index].remains gone) = blocks[index].remains (gone ++ [loop]))
    (cores : SameCores (graph.mapInstructions index f) next)
    (others : ∀ id, (id = index → ∀ role, ¬Bears blocks loop role index) →
      (next.node id).successors = (graph.node id).successors)
    (own : ∀ role, Bears blocks loop role index → ∀ target ∈ (next.node index).successors,
      role ≠ .tail ∧ target < original.size ∧ (original.node target).start = (original.node index).stop) :
    Trimmed blocks gone loop original (index :: done) next where
  keeps := (trimmed.keeps.trans (.mapInstructions graph index f)).trans (.of_sameCores cores)
  size := (cores.size.trans (size_mapInstructions f)).trans trimmed.size
  structures id outside := by
    rw [cores.kind, node_mapInstructions_of_ne (Nat.ne_of_lt (Nat.lt_of_lt_of_le inside outside))]
    exact trimmed.structures id outside
  kinds other bound := by
    rw [cores.kind]
    by_cases here : other = index
    · subst here
      rw [kind_mapInstructions_self (trimmed.kinds other bound), if_neg undone, if_pos (.head _), rest]
    · rw [node_mapInstructions_of_ne (Ne.symm here), trimmed.kinds other bound]
      simp [here]
  others id free := by
    rw [others id fun here role bears => free role (here ▸ bears) (here ▸ .head _)]
    exact trimmed.others id fun role bears member => free role bears (.tail _ member)
  own id member role bears := by
    rcases List.mem_cons.mp member with rfl | old
    · exact own role bears
    · rw [others id fun here => absurd (here ▸ old) undone]
      exact trimmed.own id old role bears

/-- The branch at the end of a block is taken out, with edges that leave the block. -/
theorem trim_branch (bears : Bears blocks loop role index) (undone : index ∉ done)
    {f : List Instruction → List Instruction}
    (rest : ∀ inside : index < blocks.length,
      f (blocks[index].remains gone) = blocks[index].remains (gone ++ [loop]))
    (cores : SameCores (graph.mapInstructions index f) next) {after : List NodeId}
    (successors : ∀ id, (next.node id).successors =
      if index = id then after else ((graph.mapInstructions index f).node id).successors)
    (own : ∀ target ∈ after,
      role ≠ .tail ∧ target < original.size ∧ (original.node target).start = (original.node index).stop) :
    Trimmed blocks gone loop original (index :: done) next := by
  have inside := bears.1
  refine trimmed.trim inside undone (rest inside) cores (fun id free => ?_) fun different isOther => ?_
  · rw [successors, if_neg fun here => free here.symm role bears]
    exact (sameEdges_mapInstructions f).successors id
  · rwa [successors, if_pos rfl, ← bears.role_eq isOther]

end

/-- With all that a loop has taken out, its branches are gone, and other blocks lead where they led. -/
theorem staged (trimmed : Trimmed blocks gone loop graph done next) (arranged : Arranged typed loops blocks finish)
    (staged : Staged blocks built gone graph) (agree : graph.Mutual)
    (branches : ∀ index role, Bears blocks loop role index → index ∈ done)
    (leads : ∀ (index : Nat) (inside : index < blocks.length) (discard : Instruction),
      blocks[index].lead = some (loop, discard) → index ∈ done) :
    Staged blocks built (gone ++ [loop]) next := by
  have nextKinds (index : Nat) (inside : index < blocks.length) :
      (next.node index).kind = .block ⟨index, blocks[index].remains (gone ++ [loop])⟩ := by
    rw [trimmed.kinds index inside]
    split
    · rfl
    · next undone =>
      rw [Arranged.remains_other (fun _ discard isLead same => ?_) fun scaffold isScaffold same => ?_]
      · exact undone (leads index inside discard (same ▸ isLead))
      · exact undone (branches index scaffold.role ⟨inside, scaffold.ending, same ▸ isScaffold⟩)
  have starts (id : Nat) (free : ∀ role, ¬Bears blocks loop role id) : startsAfter next id = startsAfter graph id := by
    unfold startsAfter
    rw [trimmed.others id fun role bears => absurd bears (free role)]
    exact List.map_congr_left fun target member => trimmed.keeps.start target (agree.target_lt member)
  -- A branch that is left is that of another loop, and is left as it was.
  have targets (id : Nat) (free : ∀ role, ¬Bears blocks loop role id) :
      (next.node id).target? = (graph.node id).target? := by
    rcases Nat.lt_or_ge id blocks.length with inside | outside
    · have fits := arranged.fits _ (List.getElem_mem inside)
      have goal : blocks[id].goal (gone ++ [loop]) = blocks[id].goal gone := by
        unfold BlockPlan.goal
        cases isScaffold : blocks[id].scaffold with
        | none => rfl
        | some scaffold =>
          have other : scaffold.loop ≠ loop := fun same =>
            free scaffold.role ⟨inside, scaffold.ending, same ▸ isScaffold⟩
          simp [other]
      simp only [Node.target?, Node.last?, Node.instructions, nextKinds id inside, staged.kinds id inside,
        fits.target?_remains, goal]
    · simp only [Node.target?, Node.last?, Node.instructions, trimmed.structures id outside]
  refine ⟨staged.owned.later trimmed.keeps, nextKinds, fun entry member => ?_, fun id outside => ?_, ?_,
    fun id level => ?_, fun id start member => ?_, fun index inside other ending isScaffold undone => ?_⟩
  · rw [trimmed.structures entry.2 (Nat.le_of_lt (staged.owned.above entry member))]
    exact staged.loops entry member
  · rw [trimmed.structures id outside]
    exact staged.structures id outside
  · exact (trimmed.fragmentBlocks_eq _ (Nat.le_refl _)).trans staged.listed
  · have bound : id < graph.size := trimmed.size ▸ lt_size_of_parent level
    rw [trimmed.keeps.parent id bound] at level
    exact staged.level id level
  · have bound : id < graph.size := by
      obtain ⟨target, isTarget, _⟩ := List.mem_map.mp member
      exact trimmed.size ▸ lt_size_of_mem_successors isTarget
    rw [trimmed.keeps.stop id bound]
    by_cases isOwn : ∃ role, Bears blocks loop role id
    · obtain ⟨role, bears⟩ := isOwn
      obtain ⟨target, isTarget, rfl⟩ := List.mem_map.mp member
      obtain ⟨_, bound, start⟩ := trimmed.own id (branches id role bears) role bears target isTarget
      exact .inl ((trimmed.keeps.start target bound).trans start)
    · have free (role : Role) : ¬Bears blocks loop role id := fun bears => isOwn ⟨role, bears⟩
      rw [starts id free] at member
      rw [targets id free]
      exact staged.edges id start member
  · rw [starts index fun role bears => ?_]
    · exact staged.preludes index inside other ending isScaffold fun early =>
        undone (List.mem_append_left _ early)
    · obtain ⟨_, _, isOther⟩ := bears
      cases isScaffold.symm.trans isOther
      exact undone (List.mem_append_right _ (.head _))

end Trimmed

end LoopNest

end Structuring
