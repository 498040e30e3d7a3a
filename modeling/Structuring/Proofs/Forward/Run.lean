import Structuring.Proofs.Forward.Row

/-! Passes over code that branches ahead only.

Its blocks are laid out in a row. No branch goes back, so there are no loops, and unless some block
compares for a case no switch is located either.
-/

namespace Structuring.Forward

open Bytecode Recovery FlowGraph LoopNest

variable {labels : List Nat} {blocks : List PlannedBlock} {finish : Nat} {context : Context} {code : Code}
  {source : Source} {session : Session} {mayFail : Prop} {opcode : Opcode}

/-! The row that is laid out -/

section

variable (planned : Planned labels blocks finish) (entered : context.Entered (slicesOf blocks finish) code)
include entered

theorem last_of_entered : (context.graph.node blocks.length).start = finish ∧
    (context.graph.node blocks.length).stop = finish ∧ (context.graph.node blocks.length).instructions = [] ∧
    (context.graph.node blocks.length).successors = [] := by
  have isLast : (blocks ++ [lastBlock finish])[blocks.length]? = some (lastBlock finish) := by simp
  obtain ⟨start, stop, _, isKind⟩ := core_of_entered entered isLast
  have text : (context.graph.node blocks.length).instructions = [] := by
    rw [Node.instructions, isKind]
    rfl
  refine ⟨start, stop, text, ?_⟩
  have bound : blocks.length < (slicesOf blocks finish).length := by rw [length_slicesOf]; omega
  have leads := entered.starts bound
  have noTarget : (context.graph.node blocks.length).target? = none := by
    rw [Node.target?, Node.last?, text]
    rfl
  rw [noTarget, List.getElem?_eq_none (by rw [List.length_range, length_slicesOf])] at leads
  simpa using leads

theorem level_of_entered (id : Nat) : (context.graph.node id).parent = some (blocks.length + 1) ↔
    id ∈ List.range blocks.length ∨ id = blocks.length := by
  rw [List.mem_range]
  constructor
  · intro level
    have bound : id < context.graph.size := lt_size_of_parent level
    rw [entered.size, length_slicesOf] at bound
    have apart : id ≠ blocks.length + 1 := by
      rintro rfl
      have parent := congrArg Node.parent entered.root
      rw [length_slicesOf] at parent
      exact absurd (level.symm.trans parent) (by simp)
    omega
  · intro inside
    have bound : id < (blocks ++ [lastBlock finish]).length := by
      rw [List.length_append, List.length_singleton]
      omega
    exact (core_of_entered entered (List.getElem?_eq_getElem bound)).2.2.1

include planned

theorem row_of_entered :
    Row context.graph (blocks.length + 1) (List.range blocks.length) blocks.length finish := by
  obtain ⟨start, stop, _, edges⟩ := last_of_entered entered
  refine ⟨level_of_entered entered, ?_, start, stop, edges⟩
  have entries : ((List.range blocks.length).zip blocks).map (·.2.plan) = blocks.map (·.plan) := by
    have second : ((List.range blocks.length).zip blocks).map Prod.snd = blocks := List.map_snd_zip (by simp)
    conv_rhs => rw [← second, List.map_map]
    rfl
  have tiled : Tiled context.graph 0 _ finish :=
    tiled_of_chained (entries ▸ planned.segment.chained) fun entry member => ?_
  · rwa [List.map_fst_zip (by simp)] at tiled
  · obtain ⟨index, bound, rfl⟩ := List.getElem_of_mem member
    rw [List.length_zip, List.length_range, Nat.min_self] at bound
    rw [List.getElem_zip, List.getElem_range]
    exact stands_of_entered planned entered bound

end

/-! Branches -/

namespace Stands

variable {graph : FlowGraph} {id : NodeId} {block : PlannedBlock} (stands : Stands graph id block)
include stands

theorem last?_of_jump {target : Nat} (jumps : block.jump = some (opcode, target)) :
    (graph.node id).last? = some { branch opcode target with address := block.start + extent block.body } := by
  rw [Node.last?, stands.instructions, PlannedBlock.getLast?_instructions jumps]

theorem target?_of_none (steps : ∀ inst ∈ placeFrom block.start block.body, IsStep finish inst)
    (plain : block.jump = none) : (graph.node id).target? = none := by
  refine Option.bind_eq_none_iff.mpr fun inst isLast => ?_
  have member := List.mem_of_getLast? isLast
  rw [stands.instructions, PlannedBlock.instructions_eq_body plain] at member
  exact Option.isNone_iff_eq_none.mp (Option.isSome_eq_false_iff.mp (steps inst member).straight)

theorem lastOpcode?_eq_iff (steps : ∀ inst ∈ placeFrom block.start block.body, IsStep finish inst)
    (takes : opcode.takesLabel = true) :
    (graph.node id).lastOpcode? = some opcode ↔ block.jump.map (·.1) = some opcode := by
  cases jumps : block.jump with
  | none =>
    refine iff_of_false (fun isLast => ?_) (by simp)
    obtain ⟨inst, isInst, rfl⟩ := Option.map_eq_some_iff.mp isLast
    have member := List.mem_of_getLast? isInst
    rw [stands.instructions, PlannedBlock.instructions_eq_body jumps] at member
    exact absurd ((steps inst member).plain.symm.trans takes) Bool.false_ne_true
  | some jump =>
    obtain ⟨found, target⟩ := jump
    rw [Node.lastOpcode?, stands.last?_of_jump jumps]
    rfl

end Stands

section

variable (planned : Planned labels blocks finish) (entered : context.Entered (slicesOf blocks finish) code)
include planned entered

theorem ahead_of_entered {index : Nat} (inside : index < blocks.length + 1) :
    (context.graph.node index).target? = none ∨ ∃ opcode target,
      (context.graph.node index).lastOpcode? = some opcode ∧ (context.graph.node index).target? = some target ∧
        opcode ∈ [Opcode.b, .bf, .bt] ∧ (context.graph.node index).start < target := by
  rcases Nat.lt_or_ge index blocks.length with within | beyond
  · have stands := stands_of_entered planned entered within
    have member : blocks[index] ∈ blocks := List.getElem_mem within
    cases jumps : blocks[index].jump with
    | none => exact .inl (stands.target?_of_none (planned.segment.steps _ member) jumps)
    | some jump =>
      obtain ⟨opcode, target⟩ := jump
      obtain ⟨known, ahead, _⟩ := planned.segment.targets _ member opcode target jumps
      have isLast := stands.last?_of_jump jumps
      refine .inr ⟨opcode, target, ?_, ?_, known, stands.start ▸ ahead⟩
      · rw [Node.lastOpcode?, isLast]
        rfl
      · rw [Node.target?, isLast]
        exact branchTarget?_branch known _ _
  · obtain rfl : index = blocks.length := by omega
    left
    rw [Node.target?, Node.last?, (last_of_entered entered).2.2.1]
    rfl

theorem findCandidates_of_entered : findCandidates context.graph (blocks.length + 1) = .ok [] := by
  have listed : fragmentBlocks context.graph (blocks.length + 1) = List.range (blocks.length + 1) := by
    have root := congrArg Node.kind entered.root
    rw [length_slicesOf] at root
    rw [FlowGraph.fragmentBlocks_eq, root]
    rfl
  have scans (remaining : List NodeId) (among : ∀ id ∈ remaining, id ∈ List.range (blocks.length + 1))
      (next : Option NodeId) : CandidateScan.run {} context.graph (List.range (blocks.length + 1)) next remaining =
        .ok {} := by
    induction remaining generalizing next with
    | nil => rfl
    | cons block rest ih =>
      have nothing : CandidateScan.visit {} context.graph (List.range (blocks.length + 1)) next block = .ok {} := by
        rcases ahead_of_entered planned entered (List.mem_range.mp (among block (.head _))) with
          none | ⟨opcode, target, isLast, goes, known, ahead⟩
        · simp [CandidateScan.visit, none]
        · have noEnvironment : opcode ≠ .pushenv := by
            rintro rfl
            simp at known
          simp [CandidateScan.visit, isLast, goes, noEnvironment, ahead]
      rw [CandidateScan.run, nothing]
      exact ih (fun id member => among id (.tail _ member)) _
  rw [findCandidates, listed, scans _ fun id member => List.mem_reverse.mp member]
  rfl

end

theorem caseTarget?_of_target {node : Node} (none : node.targetOf? .bt = none) : caseTarget? node = .none := by
  unfold caseTarget?
  split
  · next branch compare rest isReverse =>
    have isLast : node.last? = some branch := by
      rw [Node.last?, List.getLast?_eq_head?_reverse, isReverse]
      rfl
    rw [Node.targetOf?, isLast] at none
    exact ite_eq_right_iff.mpr fun _ => none
  · rfl

/-- The passes before conditionals only lay the blocks out, if no block compares for a case. -/
theorem reaches_ahead {rest : List Pass} {post : RunOutcome → Session → Prop}
    (planned : Planned labels blocks finish) (ordered : InOrder source.code.instructions)
    (childless : source.code.children = [])
    (instructions : source.code.instructions = blocks.flatMap (·.instructions)) (length : source.code.length = finish)
    (noCase : ∀ context : Context, context.Entered (slicesOf blocks finish) source.code →
      ∀ id, caseTarget? (context.graph.node id) = none)
    (second : ∀ changed next, next.Tidied True → next.claims = {} →
      next.context.Entered (slicesOf blocks finish) source.code →
      Reaches (fun _ => mayFail) (runPasses source {} changed rest) next post) :
    Reaches (fun _ => mayFail)
      (runPasses source {} [] (.blocks :: .fragments :: .switchLocate :: .loops :: rest)) {} post := by
  refine reaches_layout ordered childless (planned.cutInto instructions length childless).cutFailure?_eq_none
    (planned.sliceAt_eq instructions length childless) rfl fun changed laid tidied unclaimed entered => ?_
  have locates : Reaches (fun _ => mayFail) (Pass.switchLocate.apply source) laid fun _ next =>
      next.context = laid.context ∧ next.claims = {} :=
    .of_ok (locateSwitches_of_noCase (noCase _ entered) unclaimed) ⟨rfl, unclaimed⟩
  refine reaches_runPasses_cons rfl ((Reaches.applyPass (fun context claims => context = laid.context ∧ claims = {})
    locates (fun _ _ _ known => known.1 ▸ tidied.closed.edgesAgree) true).and_returns
    (tidies_applyPass (by simp [Pass.standard]) true tidied)) ?_
  rintro _ changed located ⟨⟨same, unclaimed⟩, tidied⟩
  rw [← same] at entered
  have loops : Reaches (fun _ => mayFail) (Pass.loops.apply source) located fun _ next =>
      next.context = located.context ∧ next.claims = {} := by
    have fragments : located.fragments = [blocks.length + 1] := by rw [entered.whole, length_slicesOf]
    have nothing : Reaches (fun _ => mayFail) (buildFragmentLoops source (blocks.length + 1)) located fun _ next =>
        next.context = located.context ∧ next.claims = {} := by
      refine .getGraph_bind ?_
      rw [findCandidates_of_entered planned entered]
      exact .pure ⟨rfl, unclaimed⟩
    refine .getContext_bind ?_
    rw [fragments, List.foldlM_cons]
    exact .bind (.bind nothing fun _ _ known => .pure known) fun _ _ known => .pure known
  refine reaches_runPasses_cons rfl ((Reaches.applyPass (fun context claims => context = located.context ∧ claims = {})
    loops (fun _ _ _ known => known.1 ▸ tidied.closed.edgesAgree) true).and_returns
    (tidies_applyPass (by simp [Pass.standard]) true tidied)) ?_
  rintro _ changed looped ⟨⟨same, unclaimed⟩, tidied⟩
  exact second changed looped tidied unclaimed (same ▸ entered)

end Structuring.Forward
