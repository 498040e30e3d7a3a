import Structuring.Proofs.LoopNest.Program

/-! Where the loops of a program lie.

Two loops are apart or one is inside the other, and a loop inside another one stops before it. Only
a while loop is sure to start before what is inside it, since its condition comes first.
-/

namespace Structuring.LoopNest

open Bytecode Recovery

variable {instructions : List Instruction} {program : Program}

/-! Room and places -/

@[simp] theorem extent_nil : extent [] = 0 := rfl

@[simp] theorem extent_cons (inst : Instruction) (rest : List Instruction) :
    extent (inst :: rest) = inst.size + extent rest := by simp [extent]

@[simp] theorem extent_append (first second : List Instruction) :
    extent (first ++ second) = extent first + extent second := by simp [extent]

theorem extent_pos (nonempty : instructions ≠ []) : 0 < extent instructions := by
  obtain ⟨inst, rest, rfl⟩ := List.exists_cons_of_ne_nil nonempty
  rw [extent_cons, Instruction.size]
  omega

@[simp] theorem extent_placeFrom (address : Nat) (instructions : List Instruction) :
    extent (placeFrom address instructions) = extent instructions := by
  induction instructions generalizing address with
  | nil => rfl
  | cons inst rest ih => simp [placeFrom, ih, Instruction.size]

@[simp] theorem placeFrom_append (address : Nat) (first second : List Instruction) :
    placeFrom address (first ++ second) =
      placeFrom address first ++ placeFrom (address + extent first) second := by
  induction first generalizing address with
  | nil => rfl
  | cons inst rest ih => simp [placeFrom, ih, Nat.add_assoc]

@[simp] theorem placeFrom_placeFrom (address other : Nat) (instructions : List Instruction) :
    placeFrom address (placeFrom other instructions) = placeFrom address instructions := by
  induction instructions generalizing address other with
  | nil => rfl
  | cons inst rest ih => simp [placeFrom, ih, Instruction.size]

theorem mem_placeFrom {address : Nat} {inst : Instruction} (member : inst ∈ placeFrom address instructions) :
    address ≤ inst.address ∧ inst.nextAddress ≤ address + extent instructions ∧
      ∃ old ∈ instructions, inst = { old with address := inst.address } := by
  induction instructions generalizing address with
  | nil => cases member
  | cons first rest ih =>
    rcases List.mem_cons.mp member with rfl | later
    · refine ⟨Nat.le_refl _, ?_, first, .head _, rfl⟩
      simp [Instruction.nextAddress, Instruction.size]
    · obtain ⟨after, before, old, among, same⟩ := ih later
      refine ⟨by omega, ?_, old, .tail _ among, same⟩
      rw [extent_cons]
      omega

@[simp] theorem instructionsOf_nil : instructionsOf [] = [] := rfl

@[simp] theorem instructionsOf_cons (piece : Piece) (rest : List Piece) :
    instructionsOf (piece :: rest) = piece.instructions ++ instructionsOf rest := by
  simp [instructionsOf]

@[simp] theorem instructionsOf_append (first second : List Piece) :
    instructionsOf (first ++ second) = instructionsOf first ++ instructionsOf second := by
  simp [instructionsOf]

@[simp] theorem size_branch (opcode : Opcode) (target : Nat) : (branch opcode target).size = 4 := rfl

namespace LoopKind

variable (kind : LoopKind) (loop : PlacedLoop) (typed : Bool)

@[simp] theorem extent_gate : extent (instructionsOf (kind.gate loop)) = kind.gateSize := by
  cases kind <;> simp [gateSize, gate, Piece.instructions, Counter.test]

@[simp] theorem extent_turning (head : Nat) : extent (kind.turning typed head) = kind.turnSize typed := by
  cases kind with
  | repeatLoop count counter => cases typed <;> rfl
  | _ => rfl

theorem four_le_turnSize : 4 ≤ kind.turnSize typed := by
  cases kind with
  | repeatLoop count counter => cases typed <;> simp [turnSize, turning, Counter.countDown] <;> omega
  | _ => simp [turnSize, turning]

theorem entrySize_pos_of_while (isWhile : kind.shape = .whileLoop) : 0 < kind.entrySize := by
  cases kind with
  | whileLoop condition => simp [entrySize, entry, Piece.instructions]
  | _ => exact absurd isWhile (by simp [shape])

end LoopKind

/-! Loops in each other -/

namespace PlacedLoop

def contains (loop : PlacedLoop) (address : Nat) : Bool := loop.start ≤ address && address < loop.stop

theorem contains_iff {loop : PlacedLoop} {address : Nat} :
    loop.contains address = true ↔ loop.start ≤ address ∧ address < loop.stop := by
  simp [contains]

def Inside (inner outer : PlacedLoop) : Prop :=
  outer.start ≤ inner.start ∧ inner.stop < outer.stop

def Apart (first second : PlacedLoop) : Prop :=
  first.stop ≤ second.start ∨ second.stop ≤ first.start

def Leads (first later : PlacedLoop) : Prop :=
  later.Inside first ∧ (first.shape = .whileLoop → first.start < later.start) ∨
    first.stop ≤ later.start

end PlacedLoop

namespace Program

variable {typed : Bool} {address : Nat} {around : Option PlacedLoop}

theorem map_fst_nest (program : Program) (around : Option PlacedLoop) (address : Nat) :
    (program.nest typed address around).map (·.1) = program.loops typed address := by
  induction program generalizing address around with
  | done => rfl
  | run steps rest ih => exact ih _ _
  | loop kind body rest bodyIH restIH => simp [nest, loops, bodyIH, restIH]

/-- A loop lies in the code of its program, and has room for the branch back. -/
theorem bounds_of_mem_loops {loop : PlacedLoop} (member : loop ∈ program.loops typed address) :
    address ≤ loop.start ∧ loop.start + 4 ≤ loop.stop ∧ loop.stop ≤ address + program.size typed := by
  induction program generalizing address with
  | done => cases member
  | run steps rest ih =>
    have := ih member
    rw [size]
    omega
  | loop kind body rest bodyIH restIH =>
    have turn := kind.four_le_turnSize typed
    rw [loops] at member
    rcases List.mem_append.mp member with first | later
    · rcases List.mem_cons.mp first with rfl | inner
      · simp only [LoopKind.place, size]
        omega
      · have := bodyIH inner
        simp only [LoopKind.place, size] at this ⊢
        omega
    · have := restIH later
      simp only [LoopKind.place, size] at this ⊢
      omega

/-- An outer loop is listed before those inside it, and an earlier one before a later one. -/
theorem pairwise_loops (typed : Bool) (program : Program) (address : Nat) :
    (program.loops typed address).Pairwise PlacedLoop.Leads := by
  induction program generalizing address with
  | done => exact .nil
  | run steps rest ih => exact ih _
  | loop kind body rest bodyIH restIH =>
    have turn := kind.four_le_turnSize typed
    rw [loops, List.cons_append]
    refine List.pairwise_cons.mpr ⟨fun loop member => ?_, List.pairwise_append.mpr
      ⟨bodyIH _, restIH _, fun first early later late => .inr ?_⟩⟩
    · rcases List.mem_append.mp member with inner | later
      · have := bounds_of_mem_loops inner
        refine .inl ⟨?_, fun isWhile => ?_⟩
        · simp only [LoopKind.place, PlacedLoop.Inside] at this ⊢
          omega
        · have := kind.entrySize_pos_of_while isWhile
          omega
      · have := bounds_of_mem_loops later
        exact .inr (by omega)
    · have := bounds_of_mem_loops early
      have := bounds_of_mem_loops late
      simp only [LoopKind.place] at *
      omega

theorem nodup_loops (typed : Bool) (program : Program) (address : Nat) :
    (program.loops typed address).Nodup := by
  have extents (loop) (member : loop ∈ program.loops typed address) := bounds_of_mem_loops member
  refine List.Pairwise.imp_of_mem (fun {first later} isFirst _ leads => ?_)
    (pairwise_loops typed program address)
  rintro rfl
  have := extents first isFirst
  rcases leads with ⟨inside, _⟩ | before
  · exact Nat.lt_irrefl _ inside.2
  · omega

end Program

structure Laminar (loops : List PlacedLoop) : Prop where
  nodup : loops.Nodup
  room : ∀ loop ∈ loops, loop.start + 4 ≤ loop.stop
  apart : ∀ first ∈ loops, ∀ second ∈ loops,
    first = second ∨ first.Apart second ∨ first.Inside second ∨ second.Inside first
  /-- Nothing inside a while loop starts where it does. -/
  heads : ∀ first ∈ loops, ∀ second ∈ loops, first.shape = .whileLoop → second.Inside first →
    first.start < second.start

theorem Program.laminar (program : Program) (typed : Bool) (address : Nat) :
    Laminar (program.loops typed address) := by
  have bounds (loop) (member : loop ∈ program.loops typed address) := bounds_of_mem_loops member
  have pairs : ∀ first ∈ program.loops typed address, ∀ second ∈ program.loops typed address,
      first ≠ second → first.Leads second ∨ second.Leads first := by
    intro first isFirst second isSecond different
    have leads := List.pairwise_iff_getElem.mp (pairwise_loops typed program address)
    obtain ⟨early, bound, rfl⟩ := List.getElem_of_mem isFirst
    obtain ⟨late, bound', rfl⟩ := List.getElem_of_mem isSecond
    rcases Nat.lt_trichotomy early late with before | rfl | after
    · exact .inl (leads early late bound bound' before)
    · exact absurd rfl different
    · exact .inr (leads late early bound' bound after)
  refine ⟨nodup_loops typed program address, fun loop member => (bounds loop member).2.1, ?_, ?_⟩
  · intro first isFirst second isSecond
    by_cases same : first = second
    · exact .inl same
    · rcases pairs first isFirst second isSecond same with (inside | before) | (inside | before)
      · exact .inr (.inr (.inr inside.1))
      · exact .inr (.inl (.inl before))
      · exact .inr (.inr (.inl inside.1))
      · exact .inr (.inl (.inr before))
  · intro first isFirst second isSecond isWhile inside
    have different : first ≠ second := by
      rintro rfl
      exact Nat.lt_irrefl _ inside.2
    have := bounds first isFirst
    have := bounds second isSecond
    unfold PlacedLoop.Inside at inside
    rcases pairs first isFirst second isSecond different with (around | before) | (around | before)
    · exact around.2 isWhile
    · omega
    · exact absurd around.1.2 (by omega)
    · omega

def IsAround (loops : List PlacedLoop) (loop : PlacedLoop) : Option PlacedLoop → Prop
  | none => ∀ other ∈ loops, ¬loop.Inside other
  | some outer => outer ∈ loops ∧ loop.Inside outer ∧
      ∀ other ∈ loops, loop.Inside other → other = outer ∨ outer.Inside other

/-- The loop listed with another one is the innermost one around it in the program, unless that is
the one around the program. -/
theorem Program.isAround_of_mem_nest {typed : Bool} {address : Nat} {around : Option PlacedLoop}
    {entry : PlacedLoop × Option PlacedLoop} (member : entry ∈ program.nest typed address around) :
    entry.2 = around ∧ IsAround (program.loops typed address) entry.1 none ∨
      ∃ outer, entry.2 = some outer ∧ IsAround (program.loops typed address) entry.1 (some outer) := by
  induction program generalizing address around with
  | done => cases member
  | run steps rest ih => exact ih member
  | loop kind body rest bodyIH restIH =>
    rw [nest] at member
    rw [loops]
    have turn := kind.four_le_turnSize typed
    have room : (kind.place typed address (body.size typed)).stop =
      (kind.place typed address (body.size typed)).start + kind.entrySize + body.size typed +
        kind.checkSize + kind.turnSize typed := rfl
    generalize kind.place typed address (body.size typed) = placed at member room ⊢
    have within (loop) (inner : loop ∈ body.loops typed (placed.start + kind.entrySize)) :
        loop.Inside placed := by
      have := bounds_of_mem_loops inner
      exact ⟨by omega, by omega⟩
    have beyond (loop) (later : loop ∈ rest.loops typed (placed.stop + kind.leaveSize)) :
        placed.stop ≤ loop.start ∧ loop.start < loop.stop := by
      have := bounds_of_mem_loops later
      omega
    have listed (inner : PlacedLoop × Option PlacedLoop) (program : Program) (place : Nat)
        (outer : Option PlacedLoop) (member : inner ∈ program.nest typed place outer) :
        inner.1 ∈ program.loops typed place :=
      program.map_fst_nest outer place ▸ List.mem_map_of_mem member
    rw [List.cons_append] at member ⊢
    rcases List.mem_cons.mp member with rfl | member
    · refine .inl ⟨rfl, fun other among (inside : placed.Inside other) => ?_⟩
      rcases List.mem_cons.mp among with rfl | among
      · exact Nat.lt_irrefl _ inside.2
      · rcases List.mem_append.mp among with inner | later
        · exact Nat.lt_asymm inside.2 (within other inner).2
        · have := beyond other later
          unfold PlacedLoop.Inside at inside
          omega
    rcases List.mem_append.mp member with inner | later
    · have self := within _ (listed _ _ _ _ inner)
      have start := (bounds_of_mem_loops (listed _ _ _ _ inner)).2.1
      have notLater (other) (later : other ∈ rest.loops typed (placed.stop + kind.leaveSize)) :
          ¬entry.1.Inside other := by
        have := beyond other later
        unfold PlacedLoop.Inside at self ⊢
        omega
      rcases bodyIH inner with ⟨isPlaced, none⟩ | ⟨outer, isOuter, among, inside, innermost⟩
      · refine .inr ⟨placed, isPlaced, .head _, self, fun other among inside => ?_⟩
        rcases List.mem_cons.mp among with same | among
        · exact .inl same
        · rcases List.mem_append.mp among with inner | later
          · exact absurd inside (none other inner)
          · exact absurd inside (notLater other later)
      · refine .inr ⟨outer, isOuter, .tail _ (List.mem_append_left _ among), inside,
          fun other among inside => ?_⟩
        rcases List.mem_cons.mp among with rfl | among
        · exact .inr (within outer ‹_›)
        · rcases List.mem_append.mp among with inner | later
          · exact innermost other inner inside
          · exact absurd inside (notLater other later)
    · have self := beyond _ (listed _ _ _ _ later)
      have notEarlier (other) (early : other = placed ∨
          other ∈ body.loops typed (placed.start + kind.entrySize)) : ¬entry.1.Inside other := by
        intro inside
        rcases early with rfl | inner
        · unfold PlacedLoop.Inside at inside
          omega
        · have := within other inner
          unfold PlacedLoop.Inside at inside this
          omega
      rcases restIH later with ⟨isAround, none⟩ | ⟨outer, isOuter, among, inside, innermost⟩
      · refine .inl ⟨isAround, fun other among => ?_⟩
        rcases List.mem_cons.mp among with same | among
        · exact notEarlier other (.inl same)
        · rcases List.mem_append.mp among with inner | later
          · exact notEarlier other (.inr inner)
          · exact none other later
      · refine .inr ⟨outer, isOuter, .tail _ (List.mem_append_right _ among), inside,
          fun other among inside => ?_⟩
        rcases List.mem_cons.mp among with same | among
        · exact absurd inside (notEarlier other (.inl same))
        · rcases List.mem_append.mp among with inner | later
          · exact absurd inside (notEarlier other (.inr inner))
          · exact innermost other later inside

end Structuring.LoopNest
