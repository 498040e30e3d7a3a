import Mathlib.Data.List.TakeWhile
import Structuring.Proofs.Assembled
import Structuring.Proofs.Branches
import Structuring.Recovery.Block

/-! Slices of code in address order.

The cut points of an entry increase and lie behind every branch, so a slice between two of them holds
the instructions in its range, with a branch at most at the end.
-/

namespace Structuring

open Bytecode Recovery FlowGraph

variable {slice : AddressRange × List Instruction} {instructions : List Instruction} {code : Code}
  {address cut : Nat} {cuts : List Nat} {inst : Instruction}

/-! Cut points -/

theorem mem_insertCut : cut ∈ insertCut address cuts ↔ cut = address ∨ cut ∈ cuts := by
  fun_induction insertCut address cuts with
  | case1 => simp
  | case2 first rest before => simp
  | case3 rest _ => simp
  | case4 first rest _ _ ih => grind

theorem sorted_insertCut (sorted : cuts.Pairwise (· < ·)) : (insertCut address cuts).Pairwise (· < ·) := by
  fun_induction insertCut address cuts with
  | case1 => exact List.pairwise_singleton _ _
  | case2 first rest before =>
    refine List.pairwise_cons.mpr ⟨fun cut member => ?_, sorted⟩
    rcases List.mem_cons.mp member with rfl | later
    · exact before
    · exact Nat.lt_trans before ((List.pairwise_cons.mp sorted).1 cut later)
  | case3 rest _ => exact sorted
  | case4 first rest notBefore apart ih =>
    obtain ⟨first, sorted⟩ := List.pairwise_cons.mp sorted
    refine List.pairwise_cons.mpr ⟨fun cut member => ?_, ih sorted⟩
    rcases mem_insertCut.mp member with rfl | later
    · omega
    · exact first cut later

theorem mem_foldr_insertCut {addresses : List Nat} : cut ∈ addresses.foldr insertCut [] ↔ cut ∈ addresses := by
  induction addresses with
  | nil => simp
  | cons first rest ih => rw [List.foldr_cons, mem_insertCut, ih, List.mem_cons]

theorem sorted_cutPoints (code : Code) : (cutPoints code).Pairwise (· < ·) := by
  unfold cutPoints
  dsimp only
  refine List.foldrRecOn (motive := fun cuts : List Nat => cuts.Pairwise (· < ·)) _ _ .nil ?_
  exact fun cuts sorted _ _ => sorted_insertCut sorted

theorem zero_mem_cutPoints (code : Code) : 0 ∈ cutPoints code :=
  mem_foldr_insertCut.mpr (.head _)

theorem head?_cutPoints (code : Code) : (cutPoints code).head? = some 0 := by
  have sorted := sorted_cutPoints code
  have isCut := zero_mem_cutPoints code
  cases isCuts : cutPoints code with
  | nil => exact absurd (isCuts ▸ isCut) List.not_mem_nil
  | cons first rest =>
    rw [isCuts] at sorted isCut
    rcases List.mem_cons.mp isCut with rfl | later
    · rfl
    · exact absurd ((List.pairwise_cons.mp sorted).1 0 later) (Nat.not_lt_zero _)

theorem nextAddress_mem_cutPoints (member : inst ∈ code.instructions)
    (leaves : inst.isBranch = true ∨ inst.isReturn = true) : inst.nextAddress ∈ cutPoints code := by
  refine mem_foldr_insertCut.mpr (List.mem_append_left _ (.tail _ (.tail _ ?_)))
  refine List.mem_flatMap.mpr ⟨inst, member, ?_⟩
  unfold instructionCuts
  split
  · simp
  · next none =>
    have isReturn := leaves.resolve_left (by simp [Instruction.isBranch, none])
    simp [isReturn]

/-! Slices -/

structure IsSlice (cuts : List Nat) (instructions : List Instruction)
    (slice : AddressRange × List Instruction) : Prop where
  sublist : slice.2.Sublist instructions
  start : ∀ inst ∈ slice.2, slice.1.start ≤ inst.address
  stop : ∀ inst ∈ slice.2, inst.address < slice.1.stop
  cut : slice.1.start ∈ cuts
  next : ∀ cut ∈ cuts, slice.1.start < cut → slice.1.stop ≤ cut

/-- Instructions at increasing addresses, which may overlap. -/
def Rising (instructions : List Instruction) : Prop :=
  instructions.Pairwise fun first second => first.address < second.address

theorem InOrder.rising (ordered : InOrder instructions) : Rising instructions :=
  ordered.imp fun follows => Nat.lt_of_lt_of_le (Instruction.address_lt_nextAddress _) follows

theorem Rising.le_of_mem_dropWhile {stop : Nat} (rising : Rising instructions)
    (member : inst ∈ instructions.dropWhile (·.address < stop)) : stop ≤ inst.address := by
  have later := rising.sublist (List.dropWhile_sublist (fun inst => decide (inst.address < stop)))
  cases rest : instructions.dropWhile (·.address < stop) with
  | nil => exact absurd (rest ▸ member) List.not_mem_nil
  | cons first more =>
    have head : stop ≤ first.address := by
      have := List.head?_dropWhile_not (fun inst : Instruction => decide (inst.address < stop)) instructions
      simpa [rest] using this
    rw [rest] at member later
    rcases List.mem_cons.mp member with rfl | among
    · exact head
    · exact Nat.le_of_lt (Nat.lt_of_le_of_lt head ((List.pairwise_cons.mp later).1 inst among))

theorem isSlice_of_mem (sorted : cuts.Pairwise (· < ·)) (rising : Rising instructions)
    (starts : ∀ first, cuts.head? = some first → ∀ inst ∈ instructions, first ≤ inst.address)
    (member : slice ∈ sliceAt cuts instructions) : IsSlice cuts instructions slice := by
  fun_induction sliceAt cuts instructions with
  | case1 => cases member
  | case2 last insts =>
    rw [List.mem_singleton.mp member]
    refine ⟨List.takeWhile_sublist _, fun inst among => ?_, fun inst among => ?_, .head _, ?_⟩
    · exact starts last rfl inst ((List.takeWhile_sublist _).subset among)
    · simpa using List.mem_takeWhile_imp among
    · intro cut isCut later
      exact absurd later (by simp [List.mem_singleton.mp isCut])
  | case3 start stop rest insts ih =>
    obtain ⟨least, sorted⟩ := List.pairwise_cons.mp sorted
    rcases List.mem_cons.mp member with rfl | later
    · refine ⟨List.takeWhile_sublist _, fun inst among => ?_, fun inst among => ?_, .head _, ?_⟩
      · exact starts start rfl inst ((List.takeWhile_sublist _).subset among)
      · simpa using List.mem_takeWhile_imp among
      · intro cut isCut after
        rcases List.mem_cons.mp isCut with rfl | isCut
        · exact absurd after (Nat.lt_irrefl _)
        · rcases List.mem_cons.mp isCut with rfl | isCut
          · exact Nat.le_refl _
          · exact Nat.le_of_lt ((List.pairwise_cons.mp sorted).1 cut isCut)
    · have isSlice := ih sorted (rising.sublist (List.dropWhile_sublist _)) ?_ later
      · refine ⟨isSlice.sublist.trans (List.dropWhile_sublist _), isSlice.start, isSlice.stop,
          .tail _ isSlice.cut, fun cut isCut after => ?_⟩
        rcases List.mem_cons.mp isCut with rfl | isCut
        · exact absurd after (Nat.lt_asymm (least _ isSlice.cut))
        · exact isSlice.next cut isCut after
      · rintro _ ⟨⟩ inst among
        exact rising.le_of_mem_dropWhile among

theorem map_start_sliceAt (cuts : List Nat) (instructions : List Instruction) :
    (sliceAt cuts instructions).map (·.1.start) = cuts := by
  fun_induction sliceAt cuts instructions with
  | case1 => rfl
  | case2 last insts => rfl
  | case3 start stop rest insts ih => rw [List.map_cons, ih]

theorem map_stop_sliceAt (cuts : List Nat) (instructions : List Instruction) :
    (sliceAt cuts instructions).map (·.1.stop) = cuts.tail ++ cuts.getLast?.toList := by
  fun_induction sliceAt cuts instructions with
  | case1 => rfl
  | case2 last insts => rfl
  | case3 start stop rest insts ih => simp [ih, List.getLast?_cons_cons]

theorem stop_mem_cuts {cuts : List Nat} {instructions : List Instruction} {slice : AddressRange × List Instruction}
    (member : slice ∈ sliceAt cuts instructions) : slice.1.stop ∈ cuts := by
  have among : slice.1.stop ∈ (sliceAt cuts instructions).map (·.1.stop) := List.mem_map_of_mem member
  rw [map_stop_sliceAt] at among
  rcases List.mem_append.mp among with later | last
  · exact List.mem_of_mem_tail later
  · exact List.mem_of_getLast? (Option.mem_toList.mp last)

abbrev Bytecode.Code.slices (code : Code) : List (AddressRange × List Instruction) :=
  sliceAt (cutPoints code) code.instructions

theorem isSlice_cutPoints (rising : Rising code.instructions) (member : slice ∈ code.slices) :
    IsSlice (cutPoints code) code.instructions slice := by
  refine isSlice_of_mem (sorted_cutPoints code) rising (fun first isFirst inst _ => ?_) member
  cases (head?_cutPoints code).symm.trans isFirst
  exact Nat.zero_le _

theorem straight_dropLast_slice (ordered : InOrder code.instructions) (member : slice ∈ code.slices) :
    ∀ inst ∈ slice.2.dropLast, inst.isBranch = false ∧ inst.isReturn = false := by
  have isSlice := isSlice_cutPoints ordered.rising member
  rcases List.eq_nil_or_concat slice.2 with isNil | ⟨init, last, isConcat⟩
  · rw [isNil]
    exact List.forall_mem_nil _
  · rw [List.concat_eq_append] at isConcat
    rw [isConcat, List.dropLast_concat]
    intro inst among
    have inSlice : inst ∈ slice.2 := by simp [isConcat, among]
    have follows : inst.nextAddress ≤ last.address := by
      have pairs := ordered.sublist isSlice.sublist
      rw [isConcat] at pairs
      exact (List.pairwise_append.mp pairs).2.2 inst among last (by simp)
    have goesOn : ¬(inst.isBranch = true ∨ inst.isReturn = true) := fun leaves => by
      have isCut := nextAddress_mem_cutPoints (isSlice.sublist.subset inSlice) leaves
      have after : slice.1.start < inst.nextAddress :=
        Nat.lt_of_le_of_lt (isSlice.start inst inSlice) inst.address_lt_nextAddress
      have stop := isSlice.next _ isCut after
      have before := isSlice.stop last (by simp [isConcat])
      omega
    simpa [not_or] using goesOn

theorem bare_dropLast_slice (ordered : InOrder code.instructions)
    (member : slice ∈ code.slices) : Bare slice.2.dropLast :=
  fun inst among => (straight_dropLast_slice ordered member inst among).1

end Structuring
