import Structuring.Proofs.Fanout.Sharing
import Structuring.Proofs.Slots.Layout

/-! How many edges leave the nodes of a finished graph.

Every node leads to at most one other, as a tree takes for granted. The exception are breaks in a switch
that shares its first block with a switch around it: each of the two leads such a break on.
-/

namespace Structuring

open Bytecode Recovery FlowGraph

variable {source : Source}

theorem Recovery.length_exits (graph : FlowGraph) (blocks : List NodeId) {id : NodeId} {parts : Block}
    (isBlock : (graph.node id).kind = .block parts) (next : Option NodeId) :
    (graph.exits blocks id next).length ≤ parts.room := by
  have lastIs : (graph.node id).last? = parts.instructions.getLast? := by
    simp only [Node.last?, Node.instructions, isBlock]
  have short (found : Option NodeId) : found.toList.length ≤ 1 := by cases found <;> simp
  have room := parts.room_bounds.1
  rw [exits, List.length_append]
  cases last : parts.instructions.getLast? with
  | none =>
    have noTarget : (graph.node id).target? = none := by rw [Node.target?, lastIs, last]; rfl
    have falls := short next
    rw [noTarget]
    split
    · simpa using Nat.le_trans falls room
    · simp
  | some inst =>
    cases target : inst.branchTarget? with
    | none =>
      have noTarget : (graph.node id).target? = none := by rw [Node.target?, lastIs, last]; exact target
      have falls := short next
      rw [noTarget]
      split
      · simpa using Nat.le_trans falls room
      · simp
    | some address =>
      have isBranch : inst.isBranch = true := by simp [Instruction.isBranch, target]
      have taken := short ((graph.node id).target?.bind (graph.blockAt? blocks))
      by_cases isJump : inst.opcode = .b
      · have stays : fallsThrough (graph.node id) = false := by
          simp [fallsThrough, lastIs, last, Instruction.isJump, isJump, isBranch]
        rw [stays]
        simpa using Nat.le_trans taken room
      · have forks : parts.room = 2 := by simp [Block.room, Block.forks, last, isBranch, isJump]
        have falls := short next
        rw [forks]
        split
        · omega
        · simpa using Nat.le_succ_of_le taken

/-- Blocks that lead where their last instructions do have room for that. -/
theorem Recovery.Context.Blocked.slim {slices : List (AddressRange × List Instruction)} {context : Context}
    {limit : NodeId → Nat} (blocked : context.Blocked slices) : context.graph.Slim limit := by
  intro id
  by_cases inside : id < slices.length
  · have core := blocked.core id inside
    have isBlock : (context.graph.node id).kind = .block { index := id, instructions := slices[id].2 } :=
      congrArg Node.kind core
    rw [blocked.successors id inside, isBlock]
    exact length_exits context.graph _ isBlock _
  · rw [node_of_size_le (blocked.size ▸ Nat.le_of_not_lt inside)]
    exact Nat.zero_le _

theorem Recovery.Claims.LocatedIn.spread {session : Session} {claims : Claims}
    (opened : session.Opened source) (located : claims.LocatedIn session.graph) :
    Spread session.graph claims.switches := by
  constructor
  · exact located.starts
  · intro location member
    exact (located.located location member).found.order.subset (.tail _ (.head _))
  · intro first one second two together before
    exact (located.located first one).separate (located.located second two) together
      (opened.increasing first.fragment) before

/-- Without branches, blocks have room for one edge like all other nodes. -/
theorem FlowGraph.Kind.room_le_of_bare {graph : FlowGraph} {id : NodeId} {limit : Nat}
    (bare : Bare (graph.node id).instructions) (few : limit ≤ 1) : (graph.node id).kind.room limit ≤ 1 := by
  cases isKind : (graph.node id).kind with
  | block parts =>
    have plain : parts.forks = false := by
      simp only [Node.instructions, isKind] at bare
      unfold Block.forks
      cases last : parts.instructions.getLast? with
      | none => rfl
      | some inst => simp [bare inst (List.mem_of_getLast? last)]
    simp [Kind.room, Block.room, plain]
  | sentinel _ => exact few
  | _ => exact Nat.le_refl 1

theorem Stages.slim {blocks laid located looped branched inserted final : Session}
    (stages : Stages source blocks laid located looped branched inserted final)
    (ordered : InOrder source.code.instructions) :
    ∃ limit, final.graph.Slim limit ∧ ∀ id, 1 < limit id →
      (final.graph.node id).kind = .sentinel .breaks ∧ ∃ inner outer, final.graph.Shared id inner outer := by
  have opened := opened_of_ran ordered stages.cuts stages.founds
  obtain ⟨locatedSound, sameContext, locatedIn⟩ := locatedIn_of_ran opened stages.locates
  obtain ⟨loopedSound, toLooped, loopedClaims⟩ := looped_of_ran locatedSound stages.loops
  obtain ⟨branchedSound, toBranched, branchedClaims⟩ := branched_of_ran loopedSound stages.branches
  have edits := toLooped.trans toBranched
  obtain ⟨locatedTidied, loopedTidied, _, insertedTidied⟩ := stages.tidied ordered
  -- No edge leaves a sentinel before switches are inserted.
  have branchedSlim : branched.graph.Slim fun _ => 0 := by
    have blocked := blocked_of_ran ordered stages.cuts
    have laidThins := stages.founds.returns (fun context _ => Thins blocks.graph context.graph)
      ((entries_buildFragments (by rw [blocked.whole]) blocked.onlyEntries).imp fun _ _ done => done.1)
    have loopedThins := stages.loops.returns (fun context _ => Thins located.graph context.graph)
      ((tidies_buildLoops locatedTidied).imp fun _ _ done => done.thins)
    have branchedThins := stages.branches.returns (fun context _ => Thins looped.graph context.graph)
      ((tidies_buildConditionals loopedTidied).imp fun _ _ done => done.thins)
    rw [sameContext] at loopedThins
    exact ((laidThins.trans loopedThins).trans branchedThins) _ blocked.slim
  have housed : located.Housed := by
    unfold Session.Housed
    rw [sameContext]
    exact opened.housed
  have spread : Spread branched.graph branched.claims.switches := by
    rw [branchedClaims, loopedClaims]
    refine Spread.later ?_ edits id locatedSound
    exact sameContext ▸ locatedIn.spread opened
  obtain ⟨entries, limit, ledOn⟩ := stages.inserts.returns
    (fun context _ => ∃ entries limit, LedOn context.graph entries limit)
    (ledOn_insertSwitches branchedSound (housed.later edits id id) spread branchedSlim)
  obtain ⟨insertedSound, _⟩ := stages.inserts.revises branchedSound (fun _ _ => True)
    (.any (revises_insertSwitches trivial trivial : Revises .full _ _ _))
  obtain ⟨_, toFinal, _⟩ := stages.initializes.revises insertedSound (fun _ _ => True)
    (.any (revises_buildStaticInits trivial : Revises Rights.full.settled _ _ _))
  refine ⟨limit, ?_, fun node several => ?_⟩
  · exact stages.initializes.returns (fun context _ => Thins inserted.graph context.graph)
      ((tidies_buildStaticInits insertedTidied).imp fun _ _ done => done.1.thins) limit ledOn.slim
  · obtain ⟨isBreak, _, _, inside⟩ := ledOn.once node (Nat.lt_of_succ_lt several)
    obtain ⟨inner, outer, shared⟩ := ledOn.twice node several
    have bound := lt_size_of_parent inside
    exact ⟨toFinal.sentinel isBreak bound, inner, outer,
      toFinal.shared id id insertedSound bound (by simp [isBreak]) shared⟩

/-- In the graph of a run that succeeds, every node leads to at most one other, unless it is a break in
a switch inside a switch that starts at the same place. -/
theorem one_successor_of_run {name listing : String} {code : Code} {features : Features}
    {outcome : RunOutcome} {final : Session} (assembled : Assembly.assemble name listing = .ok code)
    (done : structureEntry ⟨code, features⟩ = .ok outcome final) (id : NodeId) :
    (final.graph.node id).successors.length ≤ 1 ∨
      (final.graph.node id).kind = .sentinel .breaks ∧
        ∃ inner outer, final.graph.Shared id inner outer := by
  have ordered : InOrder (Source.mk code features).code.instructions :=
    Assembly.inOrder_of_assemble assembled
  obtain ⟨_, _, _, _, _, _, stages⟩ := stages_of_run done
  obtain ⟨limit, slim, shares⟩ := stages.slim ordered
  by_cases few : limit id ≤ 1
  · have bare := (ends_structureEntry ordered done).2.bare id
    exact .inl (Nat.le_trans (slim id) (Kind.room_le_of_bare bare few))
  · exact .inr (shares id (Nat.lt_of_not_le few))

def splitDispatch : String :=
  "push.v self.v\ndup.v 0\npushi.e 1\ncmp.i.v EQ\nbt [one]\nb [first]\npushi.e 2\ncmp.i.v EQ\n"
    ++ "bt [two]\nb [second]\n:[one]\npush.v self.x\nb [end]\n:[first]\npush.v self.y\nb [end]\n"
    ++ ":[two]\npush.v self.z\nb [end]\n:[second]\npush.v self.w\n:[end]\npopz.v\nb [out]\n"
    ++ ":[out]\npopz.v"

theorem run_splitDispatch :
    ∃ code outcome final, Assembly.assemble "entry" splitDispatch = .ok code ∧
      structureEntry ⟨code, .all⟩ = .ok outcome final ∧
      (final.graph.node 12).successors = [19, 22] :=
  exists_of_evaluates "entry" splitDispatch (structureEntry ⟨·, .all⟩)
    (fun _ _ final => (final.graph.node 12).successors = [19, 22]) (by decide +kernel)

theorem one_successor_of_run_splitDispatch :
    ∃ code outcome final, Assembly.assemble "entry" splitDispatch = .ok code ∧
      structureEntry ⟨code, .all⟩ = .ok outcome final ∧
      (final.graph.node 12).kind = .sentinel .breaks ∧
      ∃ inner outer, final.graph.Shared 12 inner outer := by
  obtain ⟨code, outcome, final, assembled, done, leads⟩ := run_splitDispatch
  refine ⟨code, outcome, final, assembled, done, ?_⟩
  apply (one_successor_of_run assembled done 12).resolve_left
  simp [leads]

/-- Not every node of a finished graph leads to at most one other. -/
theorem not_one_successor :
    ¬∀ (name listing : String) (features : Features) (code : Code) (outcome : RunOutcome) (final : Session),
      Assembly.assemble name listing = .ok code → structureEntry ⟨code, features⟩ = .ok outcome final →
      ∀ id, (final.graph.node id).successors.length ≤ 1 := by
  intro always
  obtain ⟨code, outcome, final, assembled, done, leads⟩ := run_splitDispatch
  have few := always _ _ _ code outcome final assembled done 12
  simp [leads] at few

end Structuring
