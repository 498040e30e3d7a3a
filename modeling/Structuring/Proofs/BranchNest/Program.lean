import Structuring.Proofs.Forward.Layout

/-! Programs of nested conditionals, and the code that stands for them.

```text
if          condition; bf join; body; join:
if, else    condition; bf else; body; b join; else: other; join:
```

The blocks of such code are planned one construct at a time. What has been read since the last block
stays open, since a run and the condition behind it are in one block.
-/

namespace Structuring.BranchNest

open Bytecode Recovery FlowGraph LoopNest Forward

variable {block : PlannedBlock} {address target : Nat} {opcode : Opcode}

/-- Runs and conditionals one after another. -/
inductive Statements where
  | done
  | run (steps : Run) (rest : Statements)
  | ifThen (condition : Run) (body rest : Statements)
  | ifElse (condition : Run) (body other rest : Statements)

structure PlacedIf where
  /-- The address of the branch behind the condition. -/
  turn : Nat
  hasElse : Bool
  /-- Where the arms meet. -/
  join : Nat
  deriving DecidableEq, Repr

namespace Statements

def size : Statements → Nat
  | done => 0
  | run steps rest => extent steps.steps + rest.size
  | ifThen condition body rest => extent condition.steps + 4 + body.size + rest.size
  | ifElse condition body other rest => extent condition.steps + 4 + body.size + 4 + other.size + rest.size

def instructions (address : Nat) : Statements → List Instruction
  | done => []
  | run steps rest => steps.steps ++ rest.instructions (address + extent steps.steps)
  | ifThen condition body rest =>
    let inside := address + extent condition.steps + 4
    let join := inside + body.size
    condition.steps ++ [branch .bf join] ++ body.instructions inside ++ rest.instructions join
  | ifElse condition body other rest =>
    let inside := address + extent condition.steps + 4
    let otherwise := inside + body.size + 4
    let join := otherwise + other.size
    condition.steps ++ [branch .bf otherwise] ++ body.instructions inside ++ [branch .b join] ++
      other.instructions otherwise ++ rest.instructions join

def nest (address : Nat) (around : Option PlacedIf) : Statements → List (PlacedIf × Option PlacedIf)
  | done => []
  | run steps rest => rest.nest (address + extent steps.steps) around
  | ifThen condition body rest =>
    let inside := address + extent condition.steps + 4
    let join := inside + body.size
    let placed : PlacedIf := ⟨address + extent condition.steps, false, join⟩
    (placed, around) :: body.nest inside (some placed) ++ rest.nest join around
  | ifElse condition body other rest =>
    let inside := address + extent condition.steps + 4
    let otherwise := inside + body.size + 4
    let join := otherwise + other.size
    let placed : PlacedIf := ⟨address + extent condition.steps, true, join⟩
    (placed, around) :: body.nest inside (some placed) ++ other.nest otherwise (some placed) ++
      rest.nest join around

def code (name : String) (symbols : Symbols) (statements : Statements) : Code where
  name
  instructions := placeFrom 0 (statements.instructions 0 ++ [exit])
  length := statements.size + exit.size
  children := []
  symbols

theorem extent_instructions (statements : Statements) (address : Nat) :
    extent (statements.instructions address) = statements.size := by
  induction statements generalizing address with
  | done => rfl
  | run steps rest ih => simp [instructions, size, ih]
  | ifThen condition body rest bodyIH restIH => simp [instructions, size, bodyIH, restIH]; omega
  | ifElse condition body other rest bodyIH otherIH restIH =>
    simp [instructions, size, bodyIH, otherIH, restIH]
    omega

/-! Conditionals in each other -/

/-- The one around a conditional is the same however deep the statements are, unless it is none. -/
theorem nest_around (statements : Statements) (address : Nat) (around : Option PlacedIf) :
    statements.nest address around = (statements.nest address none).map fun entry => (entry.1, entry.2.or around) := by
  induction statements generalizing address around with
  | done => rfl
  | run steps rest ih => exact ih _ around
  | ifThen condition body rest bodyIH restIH =>
    simp only [nest, List.map_append, List.map_cons, Option.none_or]
    rw [bodyIH, restIH _ around]
    simp [Function.comp_def]
  | ifElse condition body other rest bodyIH otherIH restIH =>
    simp only [nest, List.map_append, List.map_cons, Option.none_or]
    rw [bodyIH, otherIH, restIH _ around]
    simp [Function.comp_def]

theorem turn_bounds (statements : Statements) {around : Option PlacedIf}
    {entry : PlacedIf × Option PlacedIf} (member : entry ∈ statements.nest address around) :
    address ≤ entry.1.turn ∧ entry.1.turn < address + statements.size := by
  induction statements generalizing address around with
  | done => cases member
  | run steps rest ih =>
    have := ih member
    rw [size]
    omega
  | ifThen condition body rest bodyIH restIH =>
    simp only [nest, List.cons_append, List.mem_cons, List.mem_append] at member
    rw [size]
    rcases member with rfl | inner | later
    · dsimp only
      omega
    · have := bodyIH inner
      omega
    · have := restIH later
      omega
  | ifElse condition body other rest bodyIH otherIH restIH =>
    simp only [nest, List.cons_append, List.mem_cons, List.mem_append] at member
    rw [size]
    rcases member with rfl | (inner | second) | later
    · dsimp only
      omega
    · have := bodyIH inner
      omega
    · have := otherIH second
      omega
    · have := restIH later
      omega

theorem sorted_nest (statements : Statements) (address : Nat) (around : Option PlacedIf) :
    (statements.nest address around).Pairwise fun first second => first.1.turn < second.1.turn := by
  induction statements generalizing address around with
  | done => exact .nil
  | run steps rest ih => exact ih _ around
  | ifThen condition body rest bodyIH restIH =>
    refine List.pairwise_append.mpr ⟨List.pairwise_cons.mpr ⟨fun entry inner => ?_, bodyIH _ _⟩, restIH _ _,
      fun entry early later late => ?_⟩
    · have := body.turn_bounds inner
      dsimp only
      omega
    · have after := rest.turn_bounds late
      rcases List.mem_cons.mp early with rfl | inner
      · dsimp only
        omega
      · have := body.turn_bounds inner
        omega
  | ifElse condition body other rest bodyIH otherIH restIH =>
    refine List.pairwise_append.mpr ⟨List.pairwise_append.mpr ⟨List.pairwise_cons.mpr
      ⟨fun entry inner => ?_, bodyIH _ _⟩, otherIH _ _, fun entry early later late => ?_⟩, restIH _ _,
      fun entry early later late => ?_⟩
    · have := body.turn_bounds inner
      dsimp only
      omega
    · have after := other.turn_bounds late
      rcases List.mem_cons.mp early with rfl | inner
      · dsimp only
        omega
      · have := body.turn_bounds inner
        omega
    · have after := rest.turn_bounds late
      rcases List.mem_append.mp early with early | second
      · rcases List.mem_cons.mp early with rfl | inner
        · dsimp only
          omega
        · have := body.turn_bounds inner
          omega
      · have := other.turn_bounds second
        omega

end Statements

/-! Planned blocks -/

structure Opened where
  start : Nat
  body : List Instruction

namespace Opened

def place (opened : Opened) : Nat := opened.start + extent opened.body

def extend (opened : Opened) (instructions : List Instruction) : Opened :=
  ⟨opened.start, opened.body ++ instructions⟩

def close (opened : Opened) (opcode : Opcode) (target : Nat) : PlannedBlock :=
  ⟨opened.start, opened.body, some (opcode, target)⟩

def remainder (opened : Opened) : List PlannedBlock :=
  if opened.body = [] then [] else [⟨opened.start, opened.body, none⟩]

@[simp] theorem place_extend (opened : Opened) (instructions : List Instruction) :
    (opened.extend instructions).place = opened.place + extent instructions := by
  simp [place, extend, Nat.add_assoc]

@[simp] theorem place_fresh (start : Nat) : place ⟨start, []⟩ = start := rfl

end Opened

namespace Statements

def tail (opened : Opened) : Statements → Opened
  | done => opened
  | run steps rest => rest.tail (opened.extend steps.steps)
  | ifThen condition body rest => rest.tail ⟨opened.place + extent condition.steps + 4 + body.size, []⟩
  | ifElse condition body other rest =>
    rest.tail ⟨opened.place + extent condition.steps + 4 + body.size + 4 + other.size, []⟩

def blocks (opened : Opened) : Statements → List PlannedBlock
  | done => []
  | run steps rest => rest.blocks (opened.extend steps.steps)
  | ifThen condition body rest =>
    let inside : Opened := ⟨opened.place + extent condition.steps + 4, []⟩
    let join := inside.start + body.size
    (opened.extend condition.steps).close .bf join :: (body.blocks inside ++ (body.tail inside).remainder) ++
      rest.blocks ⟨join, []⟩
  | ifElse condition body other rest =>
    let inside : Opened := ⟨opened.place + extent condition.steps + 4, []⟩
    let otherwise : Opened := ⟨inside.start + body.size + 4, []⟩
    let join := otherwise.start + other.size
    (opened.extend condition.steps).close .bf otherwise.start ::
      (body.blocks inside ++ [(body.tail inside).close .b join] ++
        (other.blocks otherwise ++ (other.tail otherwise).remainder)) ++
      rest.blocks ⟨join, []⟩

theorem place_tail (statements : Statements) (opened : Opened) :
    (statements.tail opened).place = opened.place + statements.size := by
  induction statements generalizing opened with
  | done => rfl
  | run steps rest ih =>
    rw [tail, ih, Opened.place_extend, size, Nat.add_assoc]
  | ifThen condition body rest _ restIH =>
    rw [tail, restIH, Opened.place_fresh, size]
    omega
  | ifElse condition body other rest _ _ restIH =>
    rw [tail, restIH, Opened.place_fresh, size]
    omega

end Statements

/-! What is known of the blocks -/

namespace Opened

def Straight (opened : Opened) : Prop := ∀ inst ∈ opened.body, IsStraight inst

theorem straight_fresh (start : Nat) : Straight ⟨start, []⟩ := List.forall_mem_nil _

theorem Straight.extend {opened : Opened} (straight : opened.Straight) (run : Run) :
    (opened.extend run.steps).Straight :=
  fun inst member => (List.mem_append.mp member).elim (straight inst) (run.straight inst)

theorem start_le_place (opened : Opened) : opened.start ≤ opened.place := Nat.le_add_right _ _

theorem stop_close (opened : Opened) (opcode : Opcode) (target : Nat) :
    (opened.close opcode target).stop = opened.place + 4 := PlannedBlock.stop_of_jump rfl

variable {labels : List Nat} {finish : Nat} {opened : Opened}

theorem segment_close (straight : opened.Straight) (opcode : Opcode)
    (known : opcode ∈ [Opcode.b, .bf, .bt]) (ahead : opened.start < target) (isLabel : target ∈ labels) :
    Segment labels finish opened.start [opened.close opcode target] (opened.place + 4) := by
  rw [← stop_close opened opcode target]
  have text : (opened.close opcode target).text ≠ [] := by simp [PlannedBlock.text, close]
  have jump : (opened.close opcode target).jump = some (opcode, target) := rfl
  refine Segment.single text (Cutter.isStep_placeFrom straight) (fun other goal jumps => ?_)
    fun none => absurd (jump.symm.trans none) (by simp)
  cases Option.some.inj (jump.symm.trans jumps)
  exact ⟨known, ahead, isLabel⟩

theorem segment_remainder (straight : opened.Straight) (isLabel : opened.place ∈ labels) :
    Segment labels finish opened.start opened.remainder opened.place := by
  unfold remainder
  split
  · next empty =>
    have here : opened.place = opened.start := by rw [place, empty, extent_nil, Nat.add_zero]
    rw [here]
    exact .nil labels finish opened.start
  · next some =>
    have stop : (⟨opened.start, opened.body, none⟩ : PlannedBlock).stop = opened.place := by
      simp [PlannedBlock.stop, PlannedBlock.text, place]
    have text : (⟨opened.start, opened.body, none⟩ : PlannedBlock).text ≠ [] := by
      simpa [PlannedBlock.text] using some
    rw [← stop]
    exact .single text (Cutter.isStep_placeFrom straight) (fun _ _ jumps => absurd jumps (by simp))
      fun _ => .inl (stop ▸ isLabel)

/-- A block starts where the open one does, unless nothing has been read. -/
theorem start_mem_remainder (opened : Opened) :
    opened.start ∈ opened.remainder.map (·.start) ∨ opened.start = opened.place := by
  unfold remainder
  split
  · next empty => exact .inr (by rw [place, empty, extent_nil, Nat.add_zero])
  · exact .inl (.head _)

theorem jump_of_mem_remainder {opened : Opened} (member : block ∈ opened.remainder) : block.jump = none := by
  unfold remainder at member
  split at member
  · cases member
  · rw [List.mem_singleton.mp member]

theorem instructions_close (opened : Opened) (opcode : Opcode) (target : Nat) :
    (opened.close opcode target).instructions =
      placeFrom opened.start opened.body ++ placeFrom opened.place [branch opcode target] := by
  simp [PlannedBlock.instructions, PlannedBlock.text, close, place]

theorem instructions_remainder (opened : Opened) :
    opened.remainder.flatMap (·.instructions) = placeFrom opened.start opened.body := by
  unfold remainder
  split
  · next empty => rw [empty]; rfl
  · simp [PlannedBlock.instructions, PlannedBlock.text, placeFrom]

end Opened

namespace Statements

variable {opened : Opened}

theorem straight_tail (statements : Statements) (straight : opened.Straight) :
    (statements.tail opened).Straight := by
  induction statements generalizing opened with
  | done => exact straight
  | run steps rest ih => exact ih (straight.extend steps)
  | ifThen condition body rest _ restIH => exact restIH (Opened.straight_fresh _)
  | ifElse condition body other rest _ _ restIH => exact restIH (Opened.straight_fresh _)

/-- The blocks of statements follow each other, up to the one that is open behind them. -/
theorem segment (statements : Statements) {labels : List Nat} (finish : Nat) (straight : opened.Straight)
    (among : ∀ block ∈ statements.blocks opened, ∀ opcode target, block.jump = some (opcode, target) →
      target ∈ labels) :
    Segment labels finish opened.start (statements.blocks opened) (statements.tail opened).start := by
  induction statements generalizing opened with
  | done => exact .nil labels finish opened.start
  | run steps rest ih => exact ih (straight.extend steps) among
  | ifThen condition body rest bodyIH restIH =>
    rw [blocks] at among ⊢
    simp only [List.cons_append, List.mem_cons, List.mem_append] at among
    have isLabel := among _ (.inl rfl) .bf _ rfl
    have inside := Opened.straight_fresh (opened.place + extent condition.steps + 4)
    have bodyPlace := body.place_tail ⟨opened.place + extent condition.steps + 4, []⟩
    rw [Opened.place_fresh] at bodyPlace
    have begins := opened.start_le_place
    have head : Segment labels finish opened.start _ _ :=
      Opened.segment_close (straight.extend condition) .bf (by simp) (show opened.start < _ by omega) isLabel
    rw [Opened.place_extend] at head
    have inner := (bodyIH inside fun block member => among block (.inr (.inl (.inl member)))).append
      (Opened.segment_remainder (body.straight_tail inside) (bodyPlace ▸ isLabel))
    rw [bodyPlace] at inner
    exact (head.append inner).append
      (restIH (Opened.straight_fresh _) fun block member => among block (.inr (.inr member)))
  | ifElse condition body other rest bodyIH otherIH restIH =>
    rw [blocks] at among ⊢
    simp only [List.cons_append, List.mem_cons, List.mem_append, List.not_mem_nil, or_false] at among
    have isLabel := among _ (.inl rfl) .bf _ rfl
    have joins := among _ (.inr (.inl (.inl (.inr rfl)))) .b _ rfl
    have inside := Opened.straight_fresh (opened.place + extent condition.steps + 4)
    have otherwise := Opened.straight_fresh (opened.place + extent condition.steps + 4 + body.size + 4)
    have bodyPlace := body.place_tail ⟨opened.place + extent condition.steps + 4, []⟩
    have otherPlace := other.place_tail ⟨opened.place + extent condition.steps + 4 + body.size + 4, []⟩
    rw [Opened.place_fresh] at bodyPlace otherPlace
    have begins := opened.start_le_place
    have bodyBegins := (body.tail ⟨opened.place + extent condition.steps + 4, []⟩).start_le_place
    have head : Segment labels finish opened.start _ _ :=
      Opened.segment_close (straight.extend condition) .bf (by simp) (show opened.start < _ by omega) isLabel
    rw [Opened.place_extend] at head
    have skip : Segment labels finish _ _ _ :=
      Opened.segment_close (body.straight_tail inside) .b (by simp) (show (body.tail _).start < _ by omega) joins
    rw [bodyPlace] at skip
    have inner := (bodyIH inside fun block member => among block (.inr (.inl (.inl (.inl member))))).append skip
    have second := (otherIH otherwise fun block member => among block (.inr (.inl (.inr (.inl member))))).append
      (Opened.segment_remainder (other.straight_tail otherwise) (otherPlace ▸ joins))
    rw [otherPlace] at second
    exact (head.append (inner.append second)).append
      (restIH (Opened.straight_fresh _) fun block member => among block (.inr (.inr member)))

def starts (statements : Statements) (opened : Opened) : List Nat :=
  (statements.blocks opened).map (·.start) ++ [(statements.tail opened).start]

theorem segment_alone (statements : Statements) (straight : opened.Straight) :
    Segment ((statements.blocks opened).filterMap (·.jump.map (·.2))) 0 opened.start (statements.blocks opened)
      (statements.tail opened).start :=
  statements.segment 0 straight fun block member opcode target jumps =>
    List.mem_filterMap.mpr ⟨block, member, by rw [jumps]; rfl⟩

theorem start_mem (statements : Statements) (straight : opened.Straight) :
    opened.start ∈ statements.starts opened := by
  have here := start_mem_of_chained (statements.segment_alone straight).chained
  rwa [Planned.starts_plan] at here

/-- What starts in the body of a conditional starts in the statements, if what is behind the body does. -/
theorem mem_of_mem_starts {statements : Statements} {others : List Nat}
    (member : address ∈ statements.starts opened) (behind : (statements.tail opened).place ∈ others) :
    address ∈ (statements.blocks opened ++ (statements.tail opened).remainder).map (·.start) ++ others := by
  rw [List.map_append]
  rcases List.mem_append.mp member with early | last
  · exact List.mem_append_left _ (List.mem_append_left _ early)
  · rw [List.mem_singleton.mp last]
    rcases (statements.tail opened).start_mem_remainder with remains | empty
    · exact List.mem_append_left _ (List.mem_append_right _ remains)
    · exact List.mem_append_right _ (empty ▸ behind)

theorem starts_ifThen (condition : Run) (body rest : Statements) (opened : Opened) :
    (ifThen condition body rest).starts opened =
      opened.start :: ((body.blocks ⟨opened.place + extent condition.steps + 4, []⟩ ++
        (body.tail ⟨opened.place + extent condition.steps + 4, []⟩).remainder).map (·.start) ++
      rest.starts ⟨opened.place + extent condition.steps + 4 + body.size, []⟩) := by
  simp [starts, blocks, tail, Opened.close, Opened.extend]

theorem starts_ifElse (condition : Run) (body other rest : Statements) (opened : Opened) :
    (ifElse condition body other rest).starts opened =
      opened.start :: (body.starts ⟨opened.place + extent condition.steps + 4, []⟩ ++
        ((other.blocks ⟨opened.place + extent condition.steps + 4 + body.size + 4, []⟩ ++
          (other.tail ⟨opened.place + extent condition.steps + 4 + body.size + 4, []⟩).remainder).map (·.start) ++
        rest.starts ⟨opened.place + extent condition.steps + 4 + body.size + 4 + other.size, []⟩)) := by
  simp [starts, blocks, tail, Opened.close, Opened.extend]

theorem target_mem (statements : Statements) (member : block ∈ statements.blocks opened)
    (jumps : block.jump = some (opcode, target)) : target ∈ statements.starts opened := by
  induction statements generalizing opened with
  | done => cases member
  | run steps rest ih => exact ih member
  | ifThen condition body rest bodyIH restIH =>
    have joins := rest.start_mem (Opened.straight_fresh (opened.place + extent condition.steps + 4 + body.size))
    have behind := body.place_tail ⟨opened.place + extent condition.steps + 4, []⟩
    rw [Opened.place_fresh] at behind
    rw [blocks] at member
    simp only [List.cons_append, List.mem_cons, List.mem_append] at member
    rw [starts_ifThen]
    refine .tail _ ?_
    rcases member with rfl | (inner | remains) | later
    · cases Option.some.inj jumps
      exact List.mem_append_right _ joins
    · exact mem_of_mem_starts (bodyIH inner) (behind ▸ joins)
    · exact absurd ((Opened.jump_of_mem_remainder remains).symm.trans jumps) (by simp)
    · exact List.mem_append_right _ (restIH later)
  | ifElse condition body other rest bodyIH otherIH restIH =>
    have joins := rest.start_mem
      (Opened.straight_fresh (opened.place + extent condition.steps + 4 + body.size + 4 + other.size))
    have behind := other.place_tail ⟨opened.place + extent condition.steps + 4 + body.size + 4, []⟩
    have begins := other.start_mem (Opened.straight_fresh (opened.place + extent condition.steps + 4 + body.size + 4))
    rw [Opened.place_fresh] at behind
    rw [blocks] at member
    simp only [List.cons_append, List.mem_cons, List.mem_append, List.not_mem_nil, or_false] at member
    rw [starts_ifElse]
    refine .tail _ ?_
    rcases member with rfl | ((inner | rfl) | (second | remains)) | later
    · cases Option.some.inj jumps
      exact List.mem_append_right _ (mem_of_mem_starts begins (behind ▸ joins))
    · exact List.mem_append_left _ (bodyIH inner)
    · cases Option.some.inj jumps
      exact List.mem_append_right _ (List.mem_append_right _ joins)
    · exact List.mem_append_right _ (mem_of_mem_starts (otherIH second) (behind ▸ joins))
    · exact absurd ((Opened.jump_of_mem_remainder remains).symm.trans jumps) (by simp)
    · exact List.mem_append_right _ (List.mem_append_right _ (restIH later))

theorem opcode_cases (statements : Statements) (member : block ∈ statements.blocks opened)
    (jumps : block.jump = some (opcode, target)) : opcode = .b ∨ opcode = .bf := by
  induction statements generalizing opened with
  | done => cases member
  | run steps rest ih => exact ih member
  | ifThen condition body rest bodyIH restIH =>
    rw [blocks] at member
    simp only [List.cons_append, List.mem_cons, List.mem_append] at member
    rcases member with rfl | (inner | remains) | later
    · cases Option.some.inj jumps
      exact .inr rfl
    · exact bodyIH inner
    · exact absurd ((Opened.jump_of_mem_remainder remains).symm.trans jumps) (by simp)
    · exact restIH later
  | ifElse condition body other rest bodyIH otherIH restIH =>
    rw [blocks] at member
    simp only [List.cons_append, List.mem_cons, List.mem_append, List.not_mem_nil, or_false] at member
    rcases member with rfl | ((inner | rfl) | (second | remains)) | later
    · cases Option.some.inj jumps
      exact .inr rfl
    · exact bodyIH inner
    · cases Option.some.inj jumps
      exact .inl rfl
    · exact otherIH second
    · exact absurd ((Opened.jump_of_mem_remainder remains).symm.trans jumps) (by simp)
    · exact restIH later

/-- A block leads ahead, at most to what is open behind the statements. -/
theorem leads_bounds (statements : Statements) (straight : opened.Straight)
    (member : block ∈ statements.blocks opened) (among : address ∈ block.leads) :
    block.start < address ∧ address ≤ (statements.tail opened).start := by
  have segment := statements.segment_alone straight
  have bounds {other : PlannedBlock} (isBlock : other ∈ statements.blocks opened) :
      other.start < other.stop ∧ other.stop ≤ (statements.tail opened).start :=
    (bounds_of_chained segment.chained (List.mem_map_of_mem isBlock)).2
  cases jumps : block.jump with
  | none =>
    rw [PlannedBlock.leads, jumps] at among
    dsimp only at among
    split at among
    · cases among
    · rw [List.mem_singleton.mp among]
      exact bounds member
  | some jump =>
    obtain ⟨opcode, target⟩ := jump
    have cases : address = block.stop ∨ address = target := by
      rw [PlannedBlock.leads, jumps] at among
      dsimp only at among
      split at among
      · exact .inr (List.mem_singleton.mp among)
      · simpa using among
    rcases cases with rfl | rfl
    · exact bounds member
    · refine ⟨(segment.targets block member opcode _ jumps).2.1, ?_⟩
      rcases List.mem_append.mp (statements.target_mem member jumps) with isStart | isTail
      · obtain ⟨other, isOther, rfl⟩ := List.mem_map.mp isStart
        exact Nat.le_trans (Nat.le_of_lt (bounds isOther).1) (bounds isOther).2
      · exact Nat.le_of_eq (List.mem_singleton.mp isTail)

theorem instructions_blocks (statements : Statements) (opened : Opened) :
    (statements.blocks opened).flatMap (·.instructions) ++
        placeFrom (statements.tail opened).start (statements.tail opened).body =
      placeFrom opened.start (opened.body ++ statements.instructions opened.place) := by
  induction statements generalizing opened with
  | done => simp [blocks, tail, instructions]
  | run steps rest ih =>
    rw [blocks, tail, ih, Opened.place_extend, instructions]
    simp [Opened.extend]
  | ifThen condition body rest bodyIH restIH =>
    have inner := bodyIH ⟨opened.place + extent condition.steps + 4, []⟩
    have later := restIH ⟨opened.place + extent condition.steps + 4 + body.size, []⟩
    rw [← Opened.instructions_remainder] at inner
    simp only [Opened.place_fresh, List.nil_append] at inner later
    simp only [blocks, tail, List.flatMap_append, List.flatMap_cons, List.append_assoc] at inner ⊢
    rw [later, ← List.append_assoc _ _ (placeFrom _ (rest.instructions _)), inner, Opened.instructions_close]
    simp [instructions, Opened.extend, Opened.place, extent_instructions, placeFrom, Nat.add_assoc]
  | ifElse condition body other rest bodyIH otherIH restIH =>
    have inner := bodyIH ⟨opened.place + extent condition.steps + 4, []⟩
    have second := otherIH ⟨opened.place + extent condition.steps + 4 + body.size + 4, []⟩
    have later := restIH ⟨opened.place + extent condition.steps + 4 + body.size + 4 + other.size, []⟩
    have bodyPlace := body.place_tail ⟨opened.place + extent condition.steps + 4, []⟩
    rw [← Opened.instructions_remainder] at second
    simp only [Opened.place_fresh, List.nil_append] at inner second later bodyPlace
    simp only [blocks, tail, List.flatMap_append, List.flatMap_cons, List.flatMap_nil, List.append_nil,
      List.append_assoc, Opened.instructions_close, bodyPlace] at inner second ⊢
    rw [later, ← List.append_assoc _ _ (placeFrom _ (rest.instructions _)), second,
      ← List.append_assoc (List.flatMap _ (body.blocks _)), inner]
    simp [instructions, Opened.extend, Opened.place, extent_instructions, placeFrom, Nat.add_assoc]

/-! The whole code -/

def allBlocks (statements : Statements) : List PlannedBlock :=
  statements.blocks ⟨0, []⟩ ++
    [⟨(statements.tail ⟨0, []⟩).start, (statements.tail ⟨0, []⟩).body ++ [exit], none⟩]

def finish (statements : Statements) : Nat := statements.size + exit.size

theorem instructions_code (statements : Statements) (name : String) (symbols : Symbols) :
    (statements.code name symbols).instructions = statements.allBlocks.flatMap (·.instructions) := by
  have held := statements.instructions_blocks ⟨0, []⟩
  have place := statements.place_tail ⟨0, []⟩
  rw [Opened.place_fresh, Nat.zero_add] at place
  rw [Opened.place_fresh, List.nil_append] at held
  simp only [allBlocks, List.flatMap_append, List.flatMap_cons, List.flatMap_nil, List.append_nil]
  have last : (⟨(statements.tail ⟨0, []⟩).start, (statements.tail ⟨0, []⟩).body ++ [exit], none⟩ :
      PlannedBlock).instructions = placeFrom (statements.tail ⟨0, []⟩).start (statements.tail ⟨0, []⟩).body ++
        placeFrom statements.size [exit] := by
    rw [← place]
    simp [PlannedBlock.instructions, PlannedBlock.text, Opened.place, placeFrom]
  rw [last, ← List.append_assoc, held]
  simp [code, extent_instructions]

theorem stop_last (statements : Statements) :
    (⟨(statements.tail ⟨0, []⟩).start, (statements.tail ⟨0, []⟩).body ++ [exit], none⟩ : PlannedBlock).stop =
      statements.finish := by
  have place := statements.place_tail ⟨0, []⟩
  rw [Opened.place_fresh, Nat.zero_add] at place
  rw [finish, ← place]
  simp [PlannedBlock.stop, PlannedBlock.text, Opened.place, Nat.add_assoc]

theorem planned (statements : Statements) :
    Planned (statements.allBlocks.filterMap (·.jump.map (·.2))) statements.allBlocks statements.finish := by
  have fresh := Opened.straight_fresh 0
  have place := statements.place_tail ⟨0, []⟩
  rw [Opened.place_fresh, Nat.zero_add] at place
  have among (block : PlannedBlock) (member : block ∈ statements.blocks ⟨0, []⟩) (opcode : Opcode) (target : Nat)
      (jumps : block.jump = some (opcode, target)) : target ∈ statements.allBlocks.filterMap (·.jump.map (·.2)) :=
    List.mem_filterMap.mpr ⟨block, List.mem_append_left _ member, by rw [jumps]; rfl⟩
  have stop := statements.stop_last
  have last : Segment (statements.allBlocks.filterMap (·.jump.map (·.2))) statements.finish
      (statements.tail ⟨0, []⟩).start [⟨(statements.tail ⟨0, []⟩).start, (statements.tail ⟨0, []⟩).body ++ [exit], none⟩]
      statements.finish := by
    have text : (⟨(statements.tail ⟨0, []⟩).start, (statements.tail ⟨0, []⟩).body ++ [exit], none⟩ :
        PlannedBlock).text ≠ [] := by simp [PlannedBlock.text]
    have single : Segment (statements.allBlocks.filterMap (·.jump.map (·.2))) statements.finish _ _ _ :=
      .single text (fun inst member => ?_) (fun _ _ jumps => absurd jumps (by simp)) fun _ => .inr stop
    · rwa [stop] at single
    · rw [placeFrom_append] at member
      rcases List.mem_append.mp member with early | isExit
      · exact Cutter.isStep_placeFrom (statements.straight_tail fresh) inst early
      · have isStep := isStep_exit statements.size inst
        rw [← place] at isStep
        rw [finish, ← place]
        exact isStep isExit
  refine ⟨(statements.segment _ fresh among).append last, fun label isLabel => ?_, fun label isLabel => ?_⟩
  · obtain ⟨block, member, jumps⟩ := List.mem_filterMap.mp isLabel
    obtain ⟨⟨opcode, target⟩, isJump, rfl⟩ := Option.map_eq_some_iff.mp jumps
    exact ⟨block, member, opcode, isJump⟩
  · obtain ⟨block, member, jumps⟩ := List.mem_filterMap.mp isLabel
    obtain ⟨⟨opcode, target⟩, isJump, rfl⟩ := Option.map_eq_some_iff.mp jumps
    have starts : statements.allBlocks.map (·.start) = statements.starts ⟨0, []⟩ := by simp [allBlocks, starts]
    rw [starts]
    rcases List.mem_append.mp member with early | isLast
    · exact List.mem_append_left _ (statements.target_mem early isJump)
    · rw [List.mem_singleton.mp isLast] at isJump
      cases isJump

end Statements

end Structuring.BranchNest
