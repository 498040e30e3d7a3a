import Structuring.Proofs.Outline
import Structuring.Proofs.Slots.Layout

/-! Slots of finished graphs. -/

namespace Structuring

open Bytecode Recovery FlowGraph

namespace FlowGraph

variable {graph : FlowGraph} {owner ref : NodeId} {slot : Slot}

/-- The start of a node is in the range of a newer structure inside of another. -/
def Taken (graph : FlowGraph) (owner ref later : NodeId) : Prop :=
  owner < later ∧ graph.Below (some owner) later ∧
    (graph.node ref).startsWithin (graph.node later).start (graph.node later).stop = true

theorem Belongs.direct_or_taken (belongs : graph.Belongs owner slot ref) (whole : slot.namesBlock = false)
    (fits : slot.isLoose = true →
      (graph.node ref).startsWithin (graph.node owner).start (graph.node owner).stop = true) :
    (graph.node ref).parent = some owner ∨
      ∃ later, (graph.node ref).parent = some later ∧ graph.Taken owner ref later := by
  cases belongs with
  | direct inside => exact .inl inside
  | taken newer around holds fits => exact .inr ⟨_, around, newer, holds, fits⟩
  | deep names _ | within names _ _ => exact absurd (whole.symm.trans names) (by simp)
  | astray loose astray => exact absurd (astray.outside.symm.trans (fits loose)) (by simp)
  | elsewhere isBreak _ _ _ => exact absurd whole (by simp [isBreak, Slot.namesBlock])

end FlowGraph

/-- Whatever a finished graph has in a slot is directly inside the structure or has been taken in by a
newer one there. Otherwise it starts outside the range of the structure, or the slot of a loop names a
block that is inside of something else, or the block that drops the environment is in another function.
So if the slot does not name a block, what starts in the range and is not taken is directly inside. -/
theorem slots_belong_of_run {name listing : String} {code : Code} {features : Features}
    {outcome : RunOutcome} {final : Session} (assembled : Assembly.assemble name listing = .ok code)
    (done : structureEntry ⟨code, features⟩ = .ok outcome final) (owner : NodeId) (slot : Slot)
    (ref : NodeId) (member : (slot, ref) ∈ (final.graph.node owner).kind.slots) :
    final.graph.Belongs owner slot ref ∧ (slot.namesBlock = false →
      (slot.isLoose = true → (final.graph.node ref).startsWithin (final.graph.node owner).start
        (final.graph.node owner).stop = true) →
      (∀ later, ¬final.graph.Taken owner ref later) → (final.graph.node ref).parent = some owner) := by
  have ordered : InOrder (Source.mk code features).code.instructions :=
    Assembly.inOrder_of_assemble assembled
  have tidied := tidied_of_run ordered (by simp) done
  have belongs := tidied.tidy.belongs owner slot ref member
  refine ⟨belongs, fun whole fits apart => ?_⟩
  refine (belongs.direct_or_taken whole fits).resolve_right ?_
  rintro ⟨later, _, taken⟩
  exact apart later taken

/-- In a loop that is left at once, a break takes the place of the first block. It is the entry of the
fragment, and inside it only by way of the loop. -/
theorem slots_belong_of_run_leftLoop :
    ∃ code outcome final, Assembly.assemble "entry" Outline.leftLoop = .ok code ∧
      structureEntry ⟨code, .all⟩ = .ok outcome final ∧
      (Slot.entry, 5) ∈ (final.graph.node 4).kind.slots ∧
      ∃ later, (final.graph.node 5).parent = some later ∧ final.graph.Taken 4 5 later := by
  obtain ⟨code, outcome, final, assembled, done, member, apart⟩ :=
    exists_of_evaluates "entry" Outline.leftLoop (structureEntry ⟨·, .all⟩)
      (fun _ _ final => (Slot.entry, 5) ∈ (final.graph.node 4).kind.slots ∧
        (final.graph.node 5).parent ≠ some 4) (by decide +kernel)
  obtain ⟨belongs, _⟩ := slots_belong_of_run assembled done 4 .entry 5 member
  exact ⟨code, outcome, final, assembled, done, member,
    (belongs.direct_or_taken rfl nofun).resolve_left apart⟩

/-- Some structure of the finished graph has a node in a slot that is not directly inside it. -/
def FillsFromOutside (slot : Slot) (listing : String) : Prop :=
  ∃ code outcome final owner ref, Assembly.assemble "entry" listing = .ok code ∧
    structureEntry ⟨code, .all⟩ = .ok outcome final ∧
    (slot, ref) ∈ (final.graph.node owner).kind.slots ∧
    (final.graph.node ref).parent ≠ some owner

theorem FillsFromOutside.of_evaluated (owner ref : NodeId) {slot : Slot} {listing : String}
    (evaluated : evaluates "entry" listing (structureEntry ⟨·, .all⟩)
      (fun _ _ final => (slot, ref) ∈ (final.graph.node owner).kind.slots ∧
        (final.graph.node ref).parent ≠ some owner) = true) : FillsFromOutside slot listing := by
  obtain ⟨code, outcome, final, assembled, done, found⟩ := exists_of_evaluates _ _ _ _ evaluated
  exact ⟨code, outcome, final, owner, ref, assembled, done, found⟩

def backwardEnvironment : String := ":[end]\npopenv [start]\npushenv [end]\n:[start]\npush.v self.x"

def sharedDrop : String :=
  "b [after]\n> inner(0)\npush.v self.o\npushenv [end]\n:[start]\n:[end]\npopenv [start]\n:[after]\n"
    ++ "b [out]\npopenv <drop>\n:[out]"

/-- An entry may be inside a loop, the head of a loop beside it, and the block that drops an environment
in another function. -/
theorem slots_filled_from_outside :
    FillsFromOutside .entry Outline.leftLoop ∧ FillsFromOutside .head backwardEnvironment ∧
      FillsFromOutside .breakBlock sharedDrop :=
  ⟨.of_evaluated 4 5 (by decide +kernel), .of_evaluated 6 2 (by decide +kernel),
    .of_evaluated 9 4 (by decide +kernel)⟩

end Structuring
