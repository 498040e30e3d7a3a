import Structuring.Proofs.Listing.Reading

/-! Listings one after another.

Labels are looked up over the whole listing, and a name that has a number keeps it. Still, what a listing
says does not depend on what stands before it, except for where it starts and for the numbers of names.
-/

namespace Structuring

open Bytecode

variable {listing : String} {number distance line : Nat} {inst : Instruction}

def Bytecode.ChildEntry.shift (distance : Nat) (child : ChildEntry) : ChildEntry :=
  { child with start := distance + child.start }

/-- An operand in code that starts further on. It says the same with the numbers of other tables. -/
def Bytecode.Operand.Moved (distance : Nat) (old new : Symbols) : Operand → Operand → Prop
  | .branch target, other => other = .branch (distance + target)
  | operand, other => ∃ term, operand.term? old = some term ∧ other.term? new = some term

/-- An instruction in code that starts further on. -/
structure Bytecode.Instruction.Moved (distance : Nat) (old new : Symbols) (inst other : Instruction) : Prop where
  address : other.address = distance + inst.address
  opcode : other.opcode = inst.opcode
  type1 : other.type1 = inst.type1
  type2 : other.type2 = inst.type2
  operand : inst.operand.Moved distance old new other.operand

/-- An entry that is one entry and then another one. -/
structure Bytecode.Code.Joins (first second joint : Code) : Prop where
  instructions : ∃ moved, joint.instructions = first.instructions ++ moved ∧
    List.Forall₂ (Instruction.Moved first.length second.symbols joint.symbols) second.instructions moved
  children : joint.children = first.children ++ second.children.map (·.shift first.length)
  length : joint.length = first.length + second.length
  symbols : first.symbols.Extends joint.symbols

theorem Bytecode.Symbols.Extends.refl (symbols : Symbols) : symbols.Extends symbols :=
  ⟨List.prefix_refl _, List.prefix_refl _, List.prefix_refl _⟩

theorem Bytecode.Symbols.Extends.trans {symbols next last : Symbols} (first : symbols.Extends next)
    (second : next.Extends last) : symbols.Extends last :=
  ⟨first.variableNames.trans second.variableNames, first.functionNames.trans second.functionNames,
    first.stringValues.trans second.stringValues⟩

namespace Text

inductive Ended : List (List Char) → List (List Char) → Prop where
  | empty : Ended [] [[]]
  | last (line : List Char) : Ended [line] [line]
  | cut (line : List Char) : Ended [line ++ ['\r']] [line]
  | cons {lines ended : List (List Char)} (line : List Char) (rest : Ended lines ended) :
    Ended (line :: lines) (line :: ended)

theorem Ended.push {lines ended : List (List Char)} (c : Char) (isEnded : Ended lines ended) :
    Ended ((c :: lines.headD []) :: lines.tail) ((c :: ended.headD []) :: ended.tail) := by
  cases isEnded with
  | empty => exact .last [c]
  | last line => exact .last (c :: line)
  | cut line => exact .cut (c :: line)
  | cons line rest => exact .cons (c :: line) rest

theorem Ended.ne_nil {lines ended : List (List Char)} (isEnded : Ended lines ended) : ended ≠ [] := by
  cases isEnded <;> exact List.cons_ne_nil _ _

theorem exists_lines_join_cons {c : Char} {rest second : List Char} (noFeed : c ≠ '\n')
    (noReturn : c = '\r' → rest.head? ≠ some '\n')
    (joins : ∃ ended, Ended (lines rest) ended ∧ lines (rest ++ '\n' :: second) = ended ++ lines second) :
    ∃ ended, Ended (lines (c :: rest)) ended ∧ lines (c :: (rest ++ '\n' :: second)) = ended ++ lines second := by
  by_cases isLast : c = '\r' ∧ rest = []
  · -- A carriage return at the very end becomes part of the line ending.
    obtain ⟨rfl, rfl⟩ := isLast
    exact ⟨[[]], .cut [], rfl⟩
  · obtain ⟨ended, isEnded, same⟩ := joins
    have goesOn (isReturn : c = '\r') : (rest ++ '\n' :: second).head? ≠ some '\n' := by
      cases rest with
      | nil => exact absurd ⟨isReturn, rfl⟩ isLast
      | cons d more => exact noReturn isReturn
    rw [lines_cons noFeed noReturn, lines_cons noFeed goesOn, same]
    refine ⟨_, isEnded.push c, ?_⟩
    cases ended with
    | nil => exact absurd rfl isEnded.ne_nil
    | cons line more => rfl

theorem exists_lines_join (first second : List Char) :
    ∃ ended, Ended (lines first) ended ∧ lines (first ++ '\n' :: second) = ended ++ lines second := by
  induction first using lines.induct with
  | case1 => exact ⟨[[]], .empty, rfl⟩
  | case2 rest ih =>
    obtain ⟨ended, isEnded, same⟩ := ih
    exact ⟨[] :: ended, .cons [] isEnded, congrArg ([] :: ·) same⟩
  | case3 rest ih =>
    obtain ⟨ended, isEnded, same⟩ := ih
    exact ⟨[] :: ended, .cons [] isEnded, congrArg ([] :: ·) same⟩
  | case4 c rest noReturn noFeed none ih =>
    refine exists_lines_join_cons noFeed (fun isReturn feeds => ?_) ih
    obtain ⟨more, isRest⟩ := List.head?_eq_some_iff.mp feeds
    exact noReturn more isReturn isRest
  | case5 c rest noReturn noFeed line more isLines ih =>
    refine exists_lines_join_cons noFeed (fun isReturn feeds => ?_) ih
    obtain ⟨more, isRest⟩ := List.head?_eq_some_iff.mp feeds
    exact noReturn more isReturn isRest

end Text

namespace Assembly

open Text

def labelOn? (line : List Char) : Option String :=
  match Statement.read line with
  | .ok (some (.label name)) => some name
  | _ => none

/-- The labels that a listing declares. -/
def labelsOf (listing : String) : List String := (Text.lines listing.toList).filterMap labelOn?

theorem mem_labelsOf {label : String} :
    label ∈ labelsOf listing ↔
      ∃ line ∈ Text.lines listing.toList, Statement.read line = .ok (some (.label label)) := by
  have reads (line : List Char) : labelOn? line = some label ↔ Statement.read line = .ok (some (.label label)) := by
    unfold labelOn?
    split <;> simp_all
  simp only [labelsOf, List.mem_filterMap, reads]

/-! Lines -/

theorem exists_stripCommentFrom_return (state : Bool × Bool) (line : List Char) :
    ∃ blank, (∀ c ∈ blank, isBlank c = true) ∧ stripCommentFrom state.1 state.2 (line ++ ['\r']) =
      stripCommentFrom state.1 state.2 line ++ blank := by
  induction line generalizing state with
  | nil =>
    refine ⟨['\r'], fun c member => by rw [List.mem_singleton.mp member]; rfl, ?_⟩
    obtain ⟨inString, escaped⟩ := state
    cases inString <;> cases escaped <;> rfl
  | cons c rest ih =>
    rw [List.cons_append, stripCommentFrom_cons, stripCommentFrom_cons]
    cases scanChar state c with
    | none => exact ⟨[], by simp, rfl⟩
    | some next =>
      obtain ⟨blank, areBlank, same⟩ := ih next
      exact ⟨blank, areBlank, congrArg (c :: ·) same⟩

theorem read_append_return (line : List Char) : Statement.read (line ++ ['\r']) = Statement.read line := by
  obtain ⟨blank, areBlank, same⟩ := exists_stripCommentFrom_return (false, false) line
  obtain ⟨before, after, isText, around⟩ := exists_around_trim (stripComment line)
  have trims : trim (stripComment (line ++ ['\r'])) = trim (stripComment line) := by
    have isLonger : stripComment (line ++ ['\r']) = before ++ trim (stripComment line) ++ (after ++ blank) := by
      rw [← List.append_assoc, ← isText]
      exact same
    rw [isLonger]
    refine trim_around before (after ++ blank) (fun c member => ?_) (trimmed_trim _)
    rw [← List.append_assoc] at member
    exact (List.mem_append.mp member).elim (around c) (areBlank c)
  rw [Statement.read, Statement.read, trims]

theorem addLines_ended {lines ended : List (List Char)} (isEnded : Ended lines ended) {layout next : Layout}
    (added : layout.addLines number lines = .ok next) : layout.addLines number ended = .ok next := by
  induction isEnded generalizing layout number with
  | empty => exact added
  | last line => exact added
  | cut line =>
    rw [Layout.addLines, Layout.addLine, read_append_return] at added
    exact added
  | cons line rest ih =>
    rw [Layout.addLines] at added ⊢
    split at added
    · cases added
    · next middle isMiddle => exact ih added

theorem addLines_append {first second : List (List Char)} {layout middle : Layout}
    (added : layout.addLines number first = .ok middle) :
    layout.addLines number (first ++ second) = middle.addLines (number + first.length) second := by
  induction first generalizing layout number with
  | nil =>
    cases added
    rfl
  | cons line rest ih =>
    rw [Layout.addLines] at added
    rw [List.cons_append, Layout.addLines, List.length_cons]
    split at added
    · cases added
    · next next isNext =>
      rw [ih added, Nat.add_right_comm]
      rfl

def Layout.LabelledBy (listing : String) (layout : Layout) : Prop :=
  ∀ label ∈ layout.labels, label.1 ∈ labelsOf listing

theorem labelledBy_addLines {layout : Layout}
    (added : Layout.addLines {} 1 (Text.lines listing.toList) = .ok layout) : layout.LabelledBy listing := by
  have empty : Layout.LabelledBy listing {} := List.forall_mem_nil _
  refine Layout.keeps_addLines (fun {before after line text statement} known among read added => ?_) empty added
  cases statement with
  | label name =>
    rw [Layout.add] at added
    split at added
    · cases added
    · cases added
      exact List.forall_mem_append.mpr ⟨known, List.forall_mem_singleton.mpr (mem_labelsOf.mpr ⟨text, among, read⟩)⟩
  | child name argumentCount =>
    cases added
    exact known
  | instruction draft =>
    cases added
    exact known

/-! Layouts -/

structure Placed.Moved (distance : Nat) (old new : Symbols) (placed other : Placed) : Prop where
  address : other.address = distance + placed.address
  same : ∃ draft, placed.Lays old draft ∧ other.Lays new draft

theorem Placed.Moved.extend {old new older newer : Symbols} {placed other : Placed}
    (moved : Placed.Moved distance old new placed other) (first : old.Extends older) (second : new.Extends newer) :
    Placed.Moved distance older newer placed other := by
  obtain ⟨address, draft, lays, alike⟩ := moved
  exact ⟨address, draft, lays.extend first, alike.extend second⟩

def shiftLabel (distance : Nat) (label : String × Nat) : String × Nat := (label.1, distance + label.2)

theorem lookup_map_shiftLabel (distance : Nat) (labels : List (String × Nat)) (name : String) :
    (labels.map (shiftLabel distance)).lookup name = (labels.lookup name).map (distance + ·) := by
  induction labels with
  | nil => rfl
  | cons label rest ih =>
    rw [List.map_cons, List.lookup_cons, List.lookup_cons, ih, shiftLabel]
    cases name == label.1 <;> rfl

structure Layout.Joins (first second joint : Layout) : Prop where
  address : joint.address = first.address + second.address
  labels : joint.labels = first.labels ++ second.labels.map (shiftLabel first.address)
  children : joint.children = first.children ++ second.children.map (·.shift first.address)
  symbols : first.symbols.Extends joint.symbols
  placed : ∃ moved, joint.placed = first.placed ++ moved ∧
    List.Forall₂ (Placed.Moved first.address second.symbols joint.symbols) second.placed moved

namespace Layout

variable {first second joint next : Layout}

theorem joins_empty (first : Layout) : first.Joins {} first where
  address := rfl
  labels := (List.append_nil _).symm
  children := (List.append_nil _).symm
  symbols := .refl _
  placed := ⟨[], (List.append_nil _).symm, .nil⟩

theorem Joins.add {text : List Char} {statement : Statement} (joins : first.Joins second joint)
    (read : Statement.read text = .ok (some statement))
    (apart : ∀ name, statement = .label name → first.labels.lookup name = none)
    (added : second.add line statement = .ok next) (number : Nat) :
    ∃ longer, joint.add number statement = .ok longer ∧ first.Joins next longer := by
  obtain ⟨address, labels, children, symbols, moved, isPlaced, moves⟩ := joins
  cases statement with
  | label name =>
    rw [Layout.add] at added
    split at added
    · cases added
    · next absent =>
      cases added
      have new : ¬(joint.labels.lookup name).isSome := by
        rw [labels, List.lookup_append, apart name rfl, lookup_map_shiftLabel]
        simpa using absent
      refine ⟨_, if_neg new, { address, children, symbols, placed := ⟨moved, isPlaced, moves⟩, labels := ?_ }⟩
      simp [labels, address, shiftLabel]
  | child name argumentCount =>
    cases added
    refine ⟨_, rfl, { address, labels, symbols, placed := ⟨moved, isPlaced, moves⟩, children := ?_ }⟩
    simp [children, address, ChildEntry.shift]
  | instruction draft =>
    -- A name gets a number in both tables, and the operand stands for that name in either.
    cases added
    have fits := fits_of_readInstruction (readInstruction_of_read read)
    have stands (symbols : Symbols) := Term.standsFor_enter symbols fits
    refine ⟨_, rfl, { address := ?_, labels, children, symbols := ?_, placed := ?_ }⟩
    · exact (congrArg (· + draft.size) address).trans (Nat.add_assoc _ _ _)
    · exact symbols.trans (draft.term.extends_enter joint.symbols)
    · refine ⟨_, by rw [isPlaced, List.append_assoc], List.rel_append ?_ ?_⟩
      · exact moves.imp fun _ _ moved => moved.extend (draft.term.extends_enter _) (draft.term.extends_enter _)
      · exact .cons ⟨address, draft, ⟨rfl, rfl, rfl, stands _⟩, ⟨rfl, rfl, rfl, stands _⟩⟩ .nil

theorem Joins.addLines {lines : List (List Char)} (joins : first.Joins second joint)
    (apart : ∀ text ∈ lines, ∀ name, Statement.read text = .ok (some (.label name)) →
      first.labels.lookup name = none)
    (added : second.addLines line lines = .ok next) (number : Nat) :
    ∃ longer, joint.addLines number lines = .ok longer ∧ first.Joins next longer := by
  induction lines generalizing second joint line number with
  | nil =>
    cases added
    exact ⟨joint, rfl, joins⟩
  | cons text rest ih =>
    have later := fun text among => apart text (.tail _ among)
    rw [Layout.addLines, Layout.addLine] at added
    rw [Layout.addLines, Layout.addLine]
    cases read : Statement.read text with
    | error fault => simp [read] at added
    | ok found =>
      rw [read] at added
      cases found with
      | none => exact ih joins later added (number + 1)
      | some statement =>
        dsimp only at added ⊢
        split at added
        · cases added
        · next middle isMiddle =>
          obtain ⟨longer, isLonger, joins⟩ := joins.add read
            (fun name isLabel => apart text (.head _) name (isLabel ▸ read)) isMiddle number
          rw [isLonger]
          exact ih joins later added (number + 1)

end Layout

/-! Labels -/

/-- Where labels have got addresses in the second part, they have got them in the whole. -/
theorem Placed.Moved.resolve {old new : Symbols} {placed other : Placed}
    {labels more : List (String × Nat)} (moved : Placed.Moved distance old new placed other)
    (apart : ∀ name target, labels.lookup name = some target → more.lookup name = some (distance + target))
    (resolved : placed.resolve labels = .ok inst) :
    ∃ further, other.resolve more = .ok further ∧ inst.Moved distance old new further := by
  obtain ⟨address, draft, lays, alike⟩ := moved
  have operand := lays.operand
  have also := alike.operand
  unfold Placed.resolve at resolved ⊢
  dsimp only at resolved ⊢
  split at resolved
  · next ready isReady =>
    cases resolved
    rw [isReady] at operand
    split
    · next found isFound =>
      rw [isFound] at also
      refine ⟨_, rfl, address, ?_, ?_, ?_, ?_⟩
      · exact alike.opcode.trans lays.opcode.symm
      · exact alike.type1.trans lays.type1.symm
      · exact alike.type2.trans lays.type2.symm
      · dsimp only
        unfold Operand.Moved
        split
        · exact absurd operand (by simp [PendingOperand.StandsFor, Operand.term?])
        · exact ⟨draft.term, operand, also⟩
    · next name isLabel =>
      rw [isLabel] at also
      exact absurd also (ne_label_of_term? operand name)
  · next name isLabel =>
    rw [isLabel] at operand
    split at resolved
    · next target found =>
      cases resolved
      split
      · next ready isReady =>
        rw [isReady] at also
        exact absurd operand (ne_label_of_term? also name)
      · next same isSame =>
        rw [isSame] at also
        cases (also : draft.term = .label same).symm.trans operand
        rw [apart _ _ found]
        refine ⟨_, rfl, address, ?_, ?_, ?_, rfl⟩
        · exact alike.opcode.trans lays.opcode.symm
        · exact alike.type1.trans lays.type1.symm
        · exact alike.type2.trans lays.type2.symm
    · cases resolved

theorem Placed.resolve_append {labels : List (String × Nat)} {placed : Placed}
    (resolved : placed.resolve labels = .ok inst) (more : List (String × Nat)) :
    placed.resolve (labels ++ more) = .ok inst := by
  unfold Placed.resolve at resolved ⊢
  dsimp only at resolved ⊢
  split at resolved
  · exact resolved
  · split at resolved
    · next target found =>
      rw [List.lookup_append, found]
      exact resolved
    · cases resolved

/-- What can be done with each item of a list can be done with the items of a list like it. -/
theorem exists_mapM_of_forall₂ {ε α β : Type} {f g : α → Except ε β} {like : α → α → Prop}
    {alike : β → β → Prop} {items others : List α} {values : List β}
    (step : ∀ item other value, like item other → f item = .ok value →
      ∃ found, g other = .ok found ∧ alike value found)
    (similar : List.Forall₂ like items others) (mapped : items.mapM f = .ok values) :
    ∃ found, others.mapM g = .ok found ∧ List.Forall₂ alike values found := by
  induction similar generalizing values with
  | nil =>
    cases mapped
    exact ⟨[], rfl, .nil⟩
  | cons first _ ih =>
    rw [List.mapM_cons] at mapped
    obtain ⟨value, isValue, mapped⟩ := exists_of_bind_eq_ok mapped
    obtain ⟨rest, isRest, same⟩ := exists_of_bind_eq_ok mapped
    cases same
    obtain ⟨new, isNew, one⟩ := step _ _ _ first isValue
    obtain ⟨news, areNew, all⟩ := ih isRest
    refine ⟨new :: news, ?_, .cons one all⟩
    rw [List.mapM_cons, isNew, areNew]
    rfl

/-! Listings -/

theorem assemble_eq_ok_iff {name : String} {code : Code} :
    assemble name listing = .ok code ↔ ∃ layout instructions,
      Layout.addLines {} 1 (Text.lines listing.toList) = .ok layout ∧
      layout.placed.mapM (·.resolve layout.labels) = .ok instructions ∧
      code = { name, instructions, length := layout.address, children := layout.children
               symbols := layout.symbols } := by
  constructor
  · intro assembled
    obtain ⟨layout, isLayout, assembled⟩ := exists_of_bind_eq_ok assembled
    obtain ⟨instructions, resolved, same⟩ := exists_of_bind_eq_ok assembled
    exact ⟨layout, instructions, isLayout, resolved, (Except.ok.inj same).symm⟩
  · rintro ⟨layout, instructions, isLayout, resolved, rfl⟩
    rw [assemble, isLayout]
    change (layout.placed.mapM (·.resolve layout.labels) >>= fun _ => _) = _
    rw [resolved]
    rfl

/-- Two listings that have no label in common can be assembled as one. -/
theorem assemble_joined {name one two : String} {first second : Code}
    (isFirst : assemble name one = .ok first) (isSecond : assemble name two = .ok second)
    (apart : ∀ label ∈ labelsOf one, label ∉ labelsOf two) :
    ∃ joint, assemble name (one ++ "\n" ++ two) = .ok joint ∧ first.Joins second joint := by
  obtain ⟨head, placed, isHead, resolved, rfl⟩ := assemble_eq_ok_iff.mp isFirst
  obtain ⟨tail, others, isTail, found, rfl⟩ := assemble_eq_ok_iff.mp isSecond
  have absent (label : String) (declared : label ∈ labelsOf two) : head.labels.lookup label = none := by
    rw [List.lookup_eq_none_iff]
    intro entry member
    simp only [bne_iff_ne]
    rintro rfl
    exact apart entry.1 (labelledBy_addLines isHead entry member) declared
  -- The second part is laid out from where the first one ends, whatever the lines are numbered.
  obtain ⟨ended, isEnded, isLines⟩ := Text.exists_lines_join one.toList two.toList
  obtain ⟨joint, isJoint, joins⟩ := head.joins_empty.addLines
    (fun text member label read => absent label (mem_labelsOf.mpr ⟨text, member, read⟩)) isTail (1 + ended.length)
  obtain ⟨moved, isPlaced, moves⟩ := joins.placed
  have kept : head.placed.mapM (·.resolve joint.labels) = .ok placed := by
    have step (item other : Placed) (inst : Instruction) (same : item = other)
        (resolved : item.resolve head.labels = .ok inst) :
        ∃ found, other.resolve joint.labels = .ok found ∧ inst = found := by
      rw [joins.labels, ← same]
      exact ⟨inst, Placed.resolve_append resolved _, rfl⟩
    obtain ⟨same, isSame, equal⟩ := exists_mapM_of_forall₂ step (List.forall₂_refl head.placed) resolved
    rw [List.forall₂_eq_eq_eq] at equal
    rw [equal]
    exact isSame
  have looks (label : String) (target : Nat) (isTarget : tail.labels.lookup label = some target) :
      joint.labels.lookup label = some (head.address + target) := by
    obtain ⟨before, after, isLabels, _⟩ := List.lookup_eq_some_iff.mp isTarget
    have declared := labelledBy_addLines isTail (label, target) (by simp [isLabels])
    rw [joins.labels, List.lookup_append, absent label declared, lookup_map_shiftLabel, isTarget]
    rfl
  obtain ⟨rest, isRest, all⟩ := exists_mapM_of_forall₂
    (fun _ _ _ moved resolved => moved.resolve looks resolved) moves found
  refine ⟨_, assemble_eq_ok_iff.mpr ⟨joint, placed ++ rest, ?_, ?_, rfl⟩, ⟨rest, rfl, all⟩, joins.children,
    joins.address, joins.symbols⟩
  · have isText : (one ++ "\n" ++ two).toList = one.toList ++ '\n' :: two.toList := by simp
    rw [isText, isLines, addLines_append (addLines_ended isEnded isHead)]
    exact isJoint
  · rw [isPlaced, List.mapM_append, kept, isRest]
    rfl

def endlessLoop : String := ":[top]\npush.v self.x\nb [top]"

def jumpOverCall : String := "push.v self.y\nbt [end]\npush.v self.x\ncall.i f(1)\n:[end]"

theorem assemble_joined_jumpOverCall :
    ∃ first second joint, assemble "entry" endlessLoop = .ok first ∧
      assemble "entry" jumpOverCall = .ok second ∧
      assemble "entry" (endlessLoop ++ "\n" ++ jumpOverCall) = .ok joint ∧ first.Joins second joint := by
  have evaluated : (match assemble "entry" endlessLoop, assemble "entry" jumpOverCall with
      | .ok _, .ok _ => true
      | _, _ => false) = true := by decide +kernel
  split at evaluated
  · next first second isFirst isSecond =>
    obtain ⟨joint, isJoint, joins⟩ := assemble_joined isFirst isSecond (by decide +kernel)
    exact ⟨first, second, joint, isFirst, isSecond, isJoint, joins⟩
  · exact absurd evaluated Bool.false_ne_true

end Assembly

end Structuring
