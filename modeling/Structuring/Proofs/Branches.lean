import Structuring.Proofs.Edit

/-! Branches left in blocks.

A block that holds no branch but at its end never gets one elsewhere, so dropping what is at its
end leaves none.
-/

namespace Structuring.FlowGraph

open Bytecode Recovery

variable {graph next : FlowGraph} {id : NodeId} {opcode : Opcode}
  {instructions before after : List Instruction} {f : List Instruction → List Instruction}

def Bare (instructions : List Instruction) : Prop := ∀ inst ∈ instructions, inst.isBranch = false

structure BareBut (opcode : Opcode) (instructions : List Instruction) : Prop where
  init : Bare instructions.dropLast
  last : ∀ inst, instructions.getLast? = some inst → inst.isBranch = true → inst.opcode = opcode

theorem Shortens.subset (shorter : Shortens before after) : ∀ inst ∈ after, inst ∈ before := by
  obtain ⟨front, back, rfl, _⟩ := shorter
  intro inst member
  simp [member]

theorem Shortens.getLast?_or (shorter : Shortens before after) :
    (after.getLast? = before.getLast? ∧ ∀ inst ∈ after.dropLast, inst ∈ before.dropLast) ∨
      ∀ inst ∈ after, inst ∈ before.dropLast := by
  obtain ⟨front, back, rfl, _⟩ := shorter
  rcases List.eq_nil_or_concat back with rfl | ⟨init, last, rfl⟩
  · rcases List.eq_nil_or_concat after with rfl | ⟨init, last, rfl⟩
    · exact .inr fun inst member => absurd member List.not_mem_nil
    · refine .inl ⟨by simp, fun inst member => ?_⟩
      simp only [List.concat_eq_append, List.dropLast_concat] at member
      simp only [List.append_nil, List.concat_eq_append, ← List.append_assoc, List.dropLast_concat]
      simp [member]
  · refine .inr fun inst member => ?_
    rw [List.concat_eq_append, ← List.append_assoc, List.dropLast_concat]
    simp [member]

theorem Bare.shortens (bare : Bare before) (shorter : Shortens before after) : Bare after :=
  fun inst member => bare inst (shorter.subset inst member)

theorem Bare.dropLast (bare : Bare before.dropLast) (shorter : Shortens before after) :
    Bare after.dropLast := by
  rcases shorter.getLast?_or with ⟨_, init⟩ | inside
  · exact fun inst member => bare inst (init inst member)
  · exact fun inst member => bare inst (inside inst (List.dropLast_subset _ member))

theorem Bare.bareBut (bare : Bare instructions) : BareBut opcode instructions :=
  ⟨fun inst member => bare inst (List.dropLast_subset _ member), fun inst last isBranch =>
    absurd (bare inst (List.mem_of_getLast? last)) (by simp [isBranch])⟩

theorem BareBut.shortens (bare : BareBut opcode before) (shorter : Shortens before after) :
    BareBut opcode after := by
  rcases shorter.getLast?_or with ⟨same, init⟩ | inside
  · exact ⟨fun inst member => bare.init inst (init inst member), fun inst last =>
      bare.last inst (same ▸ last)⟩
  · exact Bare.bareBut fun inst member => bare.init inst (inside inst member)

theorem BareBut.bare (bare : BareBut opcode instructions)
    (last : ∀ inst, instructions.getLast? = some inst → inst.isBranch = false) : Bare instructions := by
  rcases List.eq_nil_or_concat instructions with rfl | ⟨init, inst, rfl⟩
  · exact List.forall_mem_nil _
  · rw [List.concat_eq_append] at bare last ⊢
    intro other member
    rcases List.mem_append.mp member with inside | atEnd
    · exact bare.init other (by simpa using inside)
    · exact List.mem_singleton.mp atEnd ▸ last inst (by simp)

theorem Node.instructions_of_not_isBlock {node : Node} (apart : node.kind.isBlock = false) :
    node.instructions = [] := by
  unfold Node.instructions
  split
  · next isBlock =>
    rw [isBlock] at apart
    exact absurd apart (by simp [Kind.isBlock])
  · rfl

theorem Node.instructions_mapInstructions (node : Node)
    (nil : f [] = []) : (node.mapInstructions f).instructions = f node.instructions := by
  obtain ⟨start, stop, predecessors, successors, parent, kind⟩ := node
  cases kind with
  | block parts => rfl
  | _ => exact nil.symm

theorem instructions_mapInstructions (nil : f [] = []) :
    ((graph.mapInstructions id f).node id).instructions = f (graph.node id).instructions := by
  rw [mapInstructions, node_modify]
  split
  · exact Node.instructions_mapInstructions _ nil
  · next outside =>
    rw [node_of_size_le (Nat.le_of_not_lt fun inside => outside ⟨rfl, inside⟩)]
    exact nil.symm

theorem bare_popIf (bare : BareBut opcode (graph.node id).instructions) :
    Bare ((graph.popIf id opcode).node id).instructions := by
  unfold popIf
  split
  · rw [popInstruction, instructions_mapInstructions rfl]
    exact bare.init
  · next other =>
    refine bare.bare fun inst last => Bool.eq_false_iff.mpr fun isBranch => other ?_
    rw [Node.lastOpcode?, Node.last?, last, ← bare.last inst last isBranch]
    rfl

theorem bare_dropBranch (bare : BareBut opcode (graph.node id).instructions) :
    Bare ((graph.dropBranch id opcode).node id).instructions := by
  rw [dropBranch, (sameCores_clearSuccessors _ id).instructions]
  exact bare_popIf bare

theorem Grows.bare (grows : Grows graph next) (bare : Bare (graph.node id).instructions)
    (bound : id < graph.size) : Bare (next.node id).instructions :=
  bare.shortens (grows.nodes id bound).instructions

theorem Grows.bareBut (grows : Grows graph next) (bare : BareBut opcode (graph.node id).instructions)
    (bound : id < graph.size) : BareBut opcode (next.node id).instructions :=
  bare.shortens (grows.nodes id bound).instructions

end Structuring.FlowGraph
