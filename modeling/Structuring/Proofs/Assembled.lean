import Mathlib.Data.List.Forall2
import Structuring.Assembly.Layout

/-! What the assembler guarantees of an entry.

The instructions fill the entry from its start to its end without a gap. Branches and nested functions
go to places where an instruction starts or the entry ends. An operation has the kind of operand that
goes with it, and a number in an operand is the number of a name.
-/

namespace Structuring

open Bytecode

variable {text : List Char} {symbols : Symbols} {opcode : Opcode} {operand : Operand} {inst : Instruction}
  {start stop line : Nat} {α β ε : Type} {signal : Signal} {type : DataType} {labels : List (String × Nat)}

def InOrder (instructions : List Instruction) : Prop :=
  instructions.Pairwise fun first second => first.nextAddress ≤ second.address

theorem Bytecode.Instruction.address_lt_nextAddress (inst : Instruction) : inst.address < inst.nextAddress := by
  unfold Instruction.nextAddress Instruction.size
  omega

def Bytecode.Instruction.Aims (inst : Instruction) : Prop :=
  inst.opcode.isBranch = true → inst.isBranch = true ∨ inst.opcode = .popenv ∧ inst.operand = .drop

structure Bytecode.Code.Assembled (code : Code) : Prop where
  ordered : InOrder code.instructions
  within : ∀ inst ∈ code.instructions, inst.address < code.length
  aims : ∀ inst ∈ code.instructions, inst.Aims

namespace Bytecode

/-- Spans of addresses that follow each other from `start` to `stop` without a gap. -/
def Fills (start stop : Nat) : List (Nat × Nat) → Prop
  | [] => start = stop
  | span :: rest => span.1 = start ∧ Fills span.2 stop rest

def Instruction.span (inst : Instruction) : Nat × Nat := (inst.address, inst.nextAddress)

def Operand.InTable (symbols : Symbols) : Operand → Prop
  | .var id _ => id < symbols.variableNames.length
  | .call function _ => function < symbols.functionNames.length
  | .string id => id < symbols.stringValues.length
  | _ => True

structure Symbols.Distinct (symbols : Symbols) : Prop where
  variableNames : symbols.variableNames.Nodup
  functionNames : symbols.functionNames.Nodup
  stringValues : symbols.stringValues.Nodup

/-- An entry that later stages can rely on. -/
structure Code.WellFormed (code : Code) : Prop where
  fills : Fills 0 code.length (code.instructions.map (·.span))
  target : ∀ inst ∈ code.instructions, ∀ target, inst.operand = .branch target → code.isBoundary target = true
  child : ∀ child ∈ code.children, code.isBoundary child.start = true
  branches : ∀ inst ∈ code.instructions, inst.opcode ∈ [Opcode.b, .bt, .bf, .pushenv] →
    ∃ target, inst.operand = .branch target
  leaves : ∀ inst ∈ code.instructions, inst.opcode = .popenv →
    inst.operand = .drop ∨ ∃ target, inst.operand = .branch target
  stays : ∀ inst ∈ code.instructions, inst.opcode.isBranch = false →
    inst.operand ≠ .drop ∧ ∀ target, inst.operand ≠ .branch target
  distinct : code.symbols.Distinct
  inTable : ∀ inst ∈ code.instructions, inst.operand.InTable code.symbols

theorem Fills.concat {next : Nat} {spans : List (Nat × Nat)} (fills : Fills start stop spans) :
    Fills start next (spans ++ [(stop, next)]) := by
  induction spans generalizing start with
  | nil => exact ⟨Eq.symm fills, rfl⟩
  | cons span rest ih => exact ⟨fills.1, ih fills.2⟩

theorem Fills.inOrder {instructions : List Instruction} (fills : Fills start stop (instructions.map (·.span))) :
    InOrder instructions ∧ start ≤ stop ∧
      ∀ inst ∈ instructions, start ≤ inst.address ∧ inst.nextAddress ≤ stop := by
  induction instructions generalizing start with
  | nil => exact ⟨.nil, Nat.le_of_eq fills, List.forall_mem_nil _⟩
  | cons first rest ih =>
    obtain ⟨rfl, fills⟩ := fills
    obtain ⟨ordered, inside, within⟩ := ih fills
    have room : first.address < first.nextAddress := first.address_lt_nextAddress
    have inside : first.nextAddress ≤ stop := inside
    refine ⟨List.pairwise_cons.mpr ⟨fun later member => (within later member).1, ordered⟩,
      Nat.le_of_lt (Nat.lt_of_lt_of_le room inside), fun inst member => ?_⟩
    rcases List.mem_cons.mp member with rfl | later
    · exact ⟨Nat.le_refl _, inside⟩
    · exact ⟨Nat.le_trans (Nat.le_of_lt room) (within inst later).1, (within inst later).2⟩

/-! Names and their numbers -/

namespace NameTable

variable (table : NameTable) (name : String)

theorem prefix_intern : table <+: (table.intern name).2 := by
  unfold intern
  split
  · exact List.prefix_refl table
  · exact List.prefix_append table [name]

theorem getElem?_intern : (table.intern name).2[(table.intern name).1]? = some name := by
  unfold intern
  split
  · next id found =>
    obtain ⟨bound, same, _⟩ := List.findIdx?_eq_some_iff_getElem.mp found
    rw [List.getElem?_eq_getElem bound, eq_of_beq same]
  · simp

theorem getElem?_of_prefix {table next : NameTable} (extended : table <+: next) {id : Nat} {name : String}
    (found : table[id]? = some name) : next[id]? = some name := by
  obtain ⟨bound, same⟩ := List.getElem?_eq_some_iff.mp found
  rw [← same]
  exact List.prefix_iff_getElem?.mp extended id bound

theorem nodup_intern {table : NameTable} (nodup : table.Nodup) : (table.intern name).2.Nodup := by
  unfold intern
  split
  · exact nodup
  · next absent =>
    rw [List.findIdx?_eq_none_iff] at absent
    refine List.nodup_append.mpr ⟨nodup, List.pairwise_singleton _ name, fun old member new among => ?_⟩
    rw [List.mem_singleton.mp among]
    exact fun same => by simpa [same] using absent old member

end NameTable

/-- Tables that have been added to at their ends. -/
structure Symbols.Extends (symbols next : Symbols) : Prop where
  variableNames : symbols.variableNames <+: next.variableNames
  functionNames : symbols.functionNames <+: next.functionNames
  stringValues : symbols.stringValues <+: next.stringValues

end Bytecode

namespace Assembly

variable {term : Term}

/-! What is read -/

theorem exists_of_map_eq_ok {f : α → β} {reading : Except Fault α} {value : β}
    (read : reading.map f = .ok value) : ∃ inner, reading = .ok inner ∧ f inner = value := by
  cases reading with
  | error fault => exact absurd read (by simp [Except.map])
  | ok inner => exact ⟨inner, rfl, Except.ok.inj read⟩

theorem exists_of_bind_eq_ok {f : α → Except ε β} {reading : Except ε α} {value : β}
    (read : reading >>= f = .ok value) : ∃ inner, reading = .ok inner ∧ f inner = .ok value := by
  cases reading with
  | error fault => exact absurd read (by simp [bind, Except.bind])
  | ok inner => exact ⟨inner, rfl, read⟩

theorem forall₂_of_mapM_ok {f : α → Except ε β} {items : List α} {values : List β}
    (read : items.mapM f = .ok values) : List.Forall₂ (fun item value => f item = .ok value) items values := by
  induction items generalizing values with
  | nil =>
    cases read
    exact .nil
  | cons item rest ih =>
    rw [List.mapM_cons] at read
    obtain ⟨value, isValue, read⟩ := exists_of_bind_eq_ok read
    obtain ⟨more, isMore, same⟩ := exists_of_bind_eq_ok read
    cases same
    exact .cons isValue (ih isMore)

theorem mem_of_mapM_ok {f : α → Except ε β} {items : List α} {values : List β}
    (read : items.mapM f = .ok values) {value : β} (member : value ∈ values) :
    ∃ item ∈ items, f item = .ok value := by
  obtain ⟨same, all⟩ := List.forall₂_iff_get.mp (forall₂_of_mapM_ok read)
  obtain ⟨⟨index, inside⟩, rfl⟩ := List.mem_iff_get.mp member
  exact ⟨items.get ⟨index, same ▸ inside⟩, List.get_mem _ _, all index (same ▸ inside) inside⟩

@[simp]
theorem require_eq_ok {reading : Option α} {fault : Fault} {value : α} :
    require reading fault = .ok value ↔ reading = some value := by
  cases reading <;> simp [require]

theorem eq_of_opcodeOfMnemonic? {text : String} (found : Opcode.ofMnemonic? text = some opcode) :
    text = opcode.mnemonic := by
  have same := List.find?_some found
  exact (eq_of_beq same).symm

theorem eq_of_signalOfMnemonic? {text : String}
    (found : Signal.ofMnemonic? text = some signal) : text = signal.mnemonic := by
  have same := List.find?_some found
  exact (eq_of_beq same).symm

theorem label_of_readLabelOperand (read : readLabelOperand text = .ok term) : ∃ name, term = .label name := by
  obtain ⟨name, _, same⟩ := exists_of_map_eq_ok read
  exact ⟨_, same.symm⟩

theorem eq_of_readString (read : readString text = .ok term) :
    ∃ inner value, (Text.dropFirst? '"' text).bind (Text.dropLast? '"') = some inner ∧
      unescape inner = .ok value ∧ term = .string (String.ofList value) := by
  obtain ⟨inner, isInner, read⟩ := exists_of_bind_eq_ok read
  obtain ⟨value, isValue, read⟩ := exists_of_bind_eq_ok read
  cases read
  exact ⟨inner, value, require_eq_ok.mp isInner, isValue, rfl⟩

theorem eq_of_readVariable (read : readVariable text = .ok term) :
    ∃ scope name number, Text.splitOnce? (· == '.') text = some (scope, name) ∧
      ((∃ known, Scope.ofName? (String.ofList scope) = some known ∧ number = known.number) ∨
        Number.readInt16? scope = some number) ∧
      term = .var (String.ofList name) number := by
  obtain ⟨⟨scope, name⟩, isSplit, read⟩ := exists_of_bind_eq_ok read
  dsimp only at read
  split at read
  · next known isKnown =>
    cases read
    exact ⟨scope, name, known.number, require_eq_ok.mp isSplit, .inl ⟨known, isKnown, rfl⟩, rfl⟩
  · obtain ⟨number, isNumber, read⟩ := exists_of_bind_eq_ok read
    cases read
    exact ⟨scope, name, number, require_eq_ok.mp isSplit, .inr (require_eq_ok.mp isNumber), rfl⟩

theorem eq_of_readCall (read : readCall text = .ok term) :
    ∃ name rest count number, Text.splitOnce? (· == '(') text = some (name, rest) ∧
      Text.dropLast? ')' rest = some count ∧ Number.readUInt16? (Text.trim count) = some number ∧
      term = .call (String.ofList (Text.trim name)) number := by
  obtain ⟨⟨name, rest⟩, isSplit, read⟩ := exists_of_bind_eq_ok read
  obtain ⟨count, isCount, read⟩ := exists_of_bind_eq_ok read
  obtain ⟨number, isNumber, read⟩ := exists_of_bind_eq_ok read
  cases read
  exact ⟨name, rest, count, number, require_eq_ok.mp isSplit, require_eq_ok.mp isCount,
    require_eq_ok.mp isNumber, rfl⟩

def Term.Fits (opcode : Opcode) : Term → Prop
  | .label _ => opcode.isBranch = true
  | .plain .drop => opcode = .popenv
  | .plain (.branch _) | .plain (.string _) | .plain (.var _ _) | .plain (.call _ _) => False
  | _ => opcode.isBranch = false

theorem Term.Fits.aims (fits : term.Fits opcode) (branches : opcode.isBranch = true) :
    (∃ name, term = .label name) ∨ opcode = .popenv ∧ term = .plain .drop := by
  unfold Term.Fits at fits
  split at fits
  · exact .inl ⟨_, rfl⟩
  · exact .inr ⟨fits, rfl⟩
  · exact fits.elim
  · exact fits.elim
  · exact fits.elim
  · exact fits.elim
  · exact absurd branches (by simp [fits])

theorem fits_of_readPush (stays : opcode.isBranch = false)
    (read : readPush type text = .ok term) : term.Fits opcode := by
  cases type with
  | string =>
    obtain ⟨_, _, _, _, rfl⟩ := eq_of_readString read
    exact stays
  | variant =>
    obtain ⟨_, _, _, _, _, rfl⟩ := eq_of_readVariable read
    exact stays
  | _ =>
    obtain ⟨value, _, rfl⟩ := exists_of_map_eq_ok read
    exact stays

theorem fits_of_readOperand (read : readOperand opcode type text = .ok term) : term.Fits opcode := by
  cases opcode with
  | b | bt | bf | pushenv =>
    obtain ⟨name, rfl⟩ := label_of_readLabelOperand read
    rfl
  | popenv =>
    simp only [readOperand] at read
    split at read
    · cases read
      rfl
    · obtain ⟨name, rfl⟩ := label_of_readLabelOperand read
      rfl
  | push | pushloc | pushglb | pushbltn | pushi => exact fits_of_readPush rfl read
  | pop =>
    obtain ⟨_, _, _, _, _, rfl⟩ := eq_of_readVariable read
    rfl
  | call =>
    obtain ⟨_, _, _, _, _, _, _, rfl⟩ := eq_of_readCall read
    rfl
  | cmp | callv =>
    obtain ⟨value, _, rfl⟩ := exists_of_map_eq_ok read
    rfl
  | dup =>
    simp only [readOperand, readDup] at read
    split at read
    · cases read
      rfl
    · obtain ⟨value, _, rfl⟩ := exists_of_map_eq_ok read
      rfl
  | signal => exact absurd read (by simp [readOperand])
  | _ =>
    simp only [readOperand] at read
    split at read
    · cases read
      rfl
    · cases read

theorem fits_of_readSignal (read : readSignal signal text = .ok term) : term.Fits .signal := by
  unfold readSignal at read
  split at read
  · obtain ⟨value, _, rfl⟩ := exists_of_map_eq_ok read
    rfl
  · cases read
    rfl

def cutHead (text : List Char) : List Char × List Char :=
  match Text.splitOnce? Text.isBlank text with
  | some (head, operand) => (head, Text.trim operand)
  | none => (text, [])

def readDraft (mnemonic : String) (types : List DataType) (operand : List Char) :
    Except Fault Draft := do
  let type1 := types[0]?.getD .int32
  let type2 := types[1]?.getD type1
  match Signal.ofMnemonic? mnemonic with
  | some signal =>
    let term ← readSignal signal operand
    return ⟨.signal, type1, type2, term⟩
  | none =>
    let opcode ← require (Opcode.ofMnemonic? mnemonic) (.unknownOpcode mnemonic)
    let term ← readOperand opcode type1 operand
    return ⟨opcode, type1, type2, term⟩

theorem readInstruction_eq (text : List Char) :
    readInstruction text =
      (Text.splitAll (· == '.') (cutHead text).1).2.mapM readSuffix >>= fun types =>
        readDraft (String.ofList (Text.splitAll (· == '.') (cutHead text).1).1) types (cutHead text).2 :=
  rfl

/-- A mnemonic is that of a signal or of an operation, and the term is what the operand says to it. -/
theorem eq_of_readDraft {mnemonic : String} {types : List DataType} {operand : List Char} {draft : Draft}
    (read : readDraft mnemonic types operand = .ok draft) :
    (draft.opcode = .signal ∧ ∃ signal, mnemonic = signal.mnemonic ∧
        readSignal signal operand = .ok draft.term) ∨
      mnemonic = draft.opcode.mnemonic ∧ readOperand draft.opcode draft.type1 operand = .ok draft.term := by
  unfold readDraft at read
  dsimp only at read
  split at read
  · next signal isSignal =>
    obtain ⟨term, isTerm, read⟩ := exists_of_bind_eq_ok read
    cases read
    exact .inl ⟨rfl, signal, eq_of_signalOfMnemonic? isSignal, isTerm⟩
  · obtain ⟨opcode, isOpcode, read⟩ := exists_of_bind_eq_ok read
    obtain ⟨term, isTerm, read⟩ := exists_of_bind_eq_ok read
    cases read
    exact .inr ⟨eq_of_opcodeOfMnemonic? (require_eq_ok.mp isOpcode), isTerm⟩

theorem fits_of_readInstruction {draft : Draft} (read : readInstruction text = .ok draft) :
    draft.term.Fits draft.opcode := by
  rw [readInstruction_eq] at read
  obtain ⟨types, _, read⟩ := exists_of_bind_eq_ok read
  rcases eq_of_readDraft read with ⟨isSignal, signal, _, isTerm⟩ | ⟨_, isTerm⟩
  · rw [isSignal]
    exact fits_of_readSignal isTerm
  · exact fits_of_readOperand isTerm

theorem child_of_readChild {statement : Statement} (read : readChild text = .ok statement) :
    ∃ name count, statement = .child name count := by
  unfold readChild at read
  simp only [bind, Except.bind] at read
  have builds (name : List Char) (count : UInt16)
      (done : (if name.isEmpty then .error .childName
        else .ok (.child (String.ofList name) count) : Except Fault Statement) = .ok statement) :
      ∃ name count, statement = .child name count := by
    split at done
    · cases done
    · cases done
      exact ⟨_, _, rfl⟩
  split at read
  · split at read
    · cases read
    · exact builds _ _ read
  · exact builds _ _ read

theorem readInstruction_of_read {line : List Char} {draft : Draft}
    (read : Statement.read line = .ok (some (.instruction draft))) :
    readInstruction (Text.trim (stripComment line)) = .ok draft := by
  unfold Statement.read at read
  split at read
  · cases read
  · obtain ⟨statement, isLabel, same⟩ := exists_of_map_eq_ok read
    obtain ⟨name, _, rfl⟩ := exists_of_map_eq_ok isLabel
    cases same
  · obtain ⟨statement, isChild, same⟩ := exists_of_map_eq_ok read
    obtain ⟨name, count, rfl⟩ := child_of_readChild isChild
    cases same
  · obtain ⟨found, isDraft, same⟩ := exists_of_map_eq_ok read
    cases same
    exact isDraft

end Assembly

/-! What is laid out -/

/-- The operand with names for its numbers. A place to go to has lost its label. -/
def Bytecode.Operand.term? (symbols : Symbols) : Operand → Option Assembly.Term
  | .string id => symbols.stringValues[id]?.map .string
  | .var id scope => symbols.variableNames[id]?.map (.var · scope)
  | .call function count => symbols.functionNames[function]?.map (.call · count)
  | .branch _ => Option.none
  | operand => some (.plain operand)

theorem Bytecode.Symbols.Extends.term?_eq {next : Symbols} (extended : symbols.Extends next)
    {term : Assembly.Term} (isTerm : operand.term? symbols = some term) : operand.term? next = some term := by
  have find {table longer : NameTable} (longest : table <+: longer) {id : Nat}
      {build : String → Assembly.Term} (found : table[id]?.map build = some term) :
      longer[id]?.map build = some term := by
    obtain ⟨name, found, same⟩ := Option.map_eq_some_iff.mp found
    exact Option.map_eq_some_iff.mpr ⟨name, NameTable.getElem?_of_prefix longest found, same⟩
  cases operand with
  | string id => exact find extended.stringValues isTerm
  | var id scope => exact find extended.variableNames isTerm
  | call function count => exact find extended.functionNames isTerm
  | _ => exact isTerm

theorem Bytecode.Operand.inTable_of_term? {term : Assembly.Term}
    (isTerm : operand.term? symbols = some term) : operand.InTable symbols := by
  cases operand with
  | string id | var id scope | call function count =>
    obtain ⟨value, found, _⟩ := Option.map_eq_some_iff.mp isTerm
    exact (List.getElem?_eq_some_iff.mp found).1
  | _ => trivial

namespace Assembly

def PendingOperand.extraSize : PendingOperand → Nat
  | .ready operand => operand.extraSize
  | .label _ => 0

def Placed.nextAddress (placed : Placed) : Nat := placed.address + (4 + placed.operand.extraSize)

theorem Term.extraSize_enter (symbols : Symbols) (term : Term) :
    (term.enter symbols).1.extraSize = term.extraSize := by
  cases term <;> rfl

theorem eq_of_term?_plain {written : Operand} (isTerm : operand.term? symbols = some (.plain written)) :
    operand = written := by
  cases operand <;> simp_all [Operand.term?]

theorem ne_label_of_term? {term : Term} (isTerm : operand.term? symbols = some term) (name : String) :
    term ≠ .label name := by
  rintro rfl
  cases operand <;> simp [Operand.term?] at isTerm

def PendingOperand.StandsFor (symbols : Symbols) : PendingOperand → Term → Prop
  | .ready operand, term => operand.term? symbols = some term
  | .label name, term => term = .label name

theorem Term.extends_enter (symbols : Symbols) (term : Term) : symbols.Extends (term.enter symbols).2 := by
  have same {table : NameTable} : table <+: table := List.prefix_refl table
  cases term with
  | plain operand => exact ⟨same, same, same⟩
  | label name => exact ⟨same, same, same⟩
  | string value => exact ⟨same, same, NameTable.prefix_intern _ value⟩
  | var name scope => exact ⟨NameTable.prefix_intern _ name, same, same⟩
  | call name count => exact ⟨same, NameTable.prefix_intern _ name, same⟩

theorem Term.distinct_enter (distinct : symbols.Distinct) (term : Term) : (term.enter symbols).2.Distinct := by
  obtain ⟨variableNames, functionNames, stringValues⟩ := distinct
  cases term with
  | plain operand => exact ⟨variableNames, functionNames, stringValues⟩
  | label name => exact ⟨variableNames, functionNames, stringValues⟩
  | string value => exact ⟨variableNames, functionNames, NameTable.nodup_intern value stringValues⟩
  | var name scope => exact ⟨NameTable.nodup_intern name variableNames, functionNames, stringValues⟩
  | call name count => exact ⟨variableNames, NameTable.nodup_intern name functionNames, stringValues⟩

theorem Term.standsFor_enter (symbols : Symbols) {term : Term}
    (fits : term.Fits opcode) : (term.enter symbols).1.StandsFor (term.enter symbols).2 term := by
  cases term with
  | label name => rfl
  | string value => exact Option.map_eq_some_iff.mpr ⟨value, NameTable.getElem?_intern _ value, rfl⟩
  | var name scope => exact Option.map_eq_some_iff.mpr ⟨name, NameTable.getElem?_intern _ name, rfl⟩
  | call name count => exact Option.map_eq_some_iff.mpr ⟨name, NameTable.getElem?_intern _ name, rfl⟩
  | plain operand =>
    cases operand with
    | branch target | string id | var id scope | call function count => exact fits.elim
    | _ => rfl

structure Placed.Lays (symbols : Symbols) (placed : Placed) (draft : Draft) : Prop where
  opcode : placed.opcode = draft.opcode
  type1 : placed.type1 = draft.type1
  type2 : placed.type2 = draft.type2
  operand : placed.operand.StandsFor symbols draft.term

theorem Placed.Lays.extend {next : Symbols} {placed : Placed} {draft : Draft}
    (lays : placed.Lays symbols draft) (extended : symbols.Extends next) : placed.Lays next draft := by
  obtain ⟨opcode, type1, type2, operand⟩ := lays
  refine ⟨opcode, type1, type2, ?_⟩
  unfold PendingOperand.StandsFor at operand ⊢
  split at operand
  · exact extended.term?_eq operand
  · exact operand

def Placed.span (placed : Placed) : Nat × Nat := (placed.address, placed.nextAddress)

def Layout.IsPlace (layout : Layout) (address : Nat) : Prop :=
  address = layout.address ∨ ∃ placed ∈ layout.placed, placed.address = address

structure Layout.Lays (lines : List (List Char)) (layout : Layout) : Prop where
  fills : Fills 0 layout.address (layout.placed.map (·.span))
  label : ∀ label ∈ layout.labels, layout.IsPlace label.2
  child : ∀ child ∈ layout.children, layout.IsPlace child.start
  distinct : layout.symbols.Distinct
  placed : ∀ placed ∈ layout.placed, ∃ line ∈ lines, ∃ draft,
    readInstruction (Text.trim (stripComment line)) = .ok draft ∧ placed.Lays layout.symbols draft

theorem Layout.Lays.add {layout next : Layout} {lines : List (List Char)}
    {statement : Statement} (lays : layout.Lays lines) (among : text ∈ lines)
    (read : Statement.read text = .ok (some statement)) (added : layout.add line statement = .ok next) :
    next.Lays lines := by
  cases statement with
  | label name =>
    rw [Layout.add] at added
    split at added
    · cases added
    · cases added
      refine { lays with label := fun label member => ?_ }
      rcases List.mem_append.mp member with old | new
      · exact lays.label label old
      · rw [List.mem_singleton.mp new]
        exact .inl rfl
  | child name argumentCount =>
    cases added
    refine { lays with child := fun child member => ?_ }
    rcases List.mem_append.mp member with old | new
    · exact lays.child child old
    · rw [List.mem_singleton.mp new]
      exact .inl rfl
  | instruction draft =>
    have isDraft := readInstruction_of_read read
    cases added
    -- The place that was next is now the place of the new instruction.
    have stays {address : Nat} (place : layout.IsPlace address) {new : Placed}
        (here : new.address = layout.address) : ∃ placed ∈ layout.placed ++ [new], placed.address = address := by
      rcases place with rfl | ⟨placed, member, same⟩
      · exact ⟨new, by simp, here⟩
      · exact ⟨placed, List.mem_append_left _ member, same⟩
    refine ⟨?_, fun label member => .inr (stays (lays.label label member) rfl),
      fun child member => .inr (stays (lays.child child member) rfl), draft.term.distinct_enter lays.distinct, ?_⟩
    · rw [List.map_append]
      have size : (draft.term.enter layout.symbols).1.extraSize = draft.term.extraSize :=
        Term.extraSize_enter layout.symbols draft.term
      simpa [Placed.span, Placed.nextAddress, size, Draft.size] using lays.fills.concat
    · intro placed member
      rcases List.mem_append.mp member with old | new
      · obtain ⟨line, isLine, written, isWritten, same⟩ := lays.placed placed old
        exact ⟨line, isLine, written, isWritten, same.extend (draft.term.extends_enter layout.symbols)⟩
      · rw [List.mem_singleton.mp new]
        exact ⟨text, among, draft, isDraft, rfl, rfl, rfl,
          Term.standsFor_enter layout.symbols (fits_of_readInstruction isDraft)⟩

theorem Layout.keeps_addLines {keeps : Layout → Prop} {layout next : Layout} {lines : List (List Char)}
    (step : ∀ {before after : Layout} {line : Nat} {text : List Char} {statement : Statement},
      keeps before → text ∈ lines → Statement.read text = .ok (some statement) →
      before.add line statement = .ok after → keeps after)
    (start : keeps layout) (added : layout.addLines line lines = .ok next) : keeps next := by
  induction lines generalizing layout line with
  | nil =>
    cases added
    exact start
  | cons text rest ih =>
    unfold Layout.addLines at added
    split at added
    · cases added
    · next middle isMiddle =>
      refine ih (fun kept among => step kept (.tail _ among)) ?_ added
      unfold Layout.addLine at isMiddle
      split at isMiddle
      · cases isMiddle
      · cases isMiddle
        exact start
      · next statement isStatement => exact step start (.head _) isStatement isMiddle

theorem Layout.lays_addLines {lines : List (List Char)} {layout : Layout}
    (added : Layout.addLines {} line lines = .ok layout) : layout.Lays lines := by
  have none {α : Type} {holds : α → Prop} : ∀ item ∈ ([] : List α), holds item := List.forall_mem_nil _
  have empty : Layout.Lays lines {} := ⟨rfl, none, none, ⟨.nil, .nil, .nil⟩, none⟩
  exact keeps_addLines (fun lays => lays.add) empty added

/-! What is assembled -/

theorem Placed.resolve_spec {placed : Placed} (resolved : placed.resolve labels = .ok inst) :
    inst.address = placed.address ∧ inst.nextAddress = placed.nextAddress := by
  unfold Placed.resolve at resolved
  dsimp only at resolved
  split at resolved
  · next operand isReady =>
    cases resolved
    simp [Instruction.nextAddress, Instruction.size, Placed.nextAddress, isReady, PendingOperand.extraSize]
  · next name isLabel =>
    split at resolved
    · cases resolved
      simp [Instruction.nextAddress, Instruction.size, Placed.nextAddress, isLabel,
        PendingOperand.extraSize, Operand.extraSize]
    · cases resolved

theorem map_span_of_resolve {placed : List Placed}
    {instructions : List Instruction} (resolved : placed.mapM (·.resolve labels) = .ok instructions) :
    instructions.map (·.span) = placed.map (·.span) := by
  have all := forall₂_of_mapM_ok resolved
  clear resolved
  induction all with
  | nil => rfl
  | cons isFirst _ ih =>
    obtain ⟨address, nextAddress⟩ := Placed.resolve_spec isFirst
    rw [List.map_cons, List.map_cons, ih, Instruction.span, Placed.span, address, nextAddress]

structure Makes (lines : List (List Char)) (layout : Layout) (code : Code) : Prop where
  lays : layout.Lays lines
  resolved : layout.placed.mapM (·.resolve layout.labels) = .ok code.instructions
  length : code.length = layout.address
  children : code.children = layout.children
  symbols : code.symbols = layout.symbols

theorem makes_of_assemble {name listing : String} {code : Code} (assembled : assemble name listing = .ok code) :
    ∃ layout, Makes (Text.lines listing.toList) layout code := by
  unfold assemble at assembled
  simp only [bind, Except.bind, pure, Except.pure] at assembled
  split at assembled
  · cases assembled
  · next layout isLayout =>
    split at assembled
    · cases assembled
    · next instructions resolved =>
      cases assembled
      exact ⟨layout, Layout.lays_addLines isLayout, resolved, rfl, rfl, rfl⟩

namespace Makes

variable {lines : List (List Char)} {layout : Layout} {code : Code}

theorem isBoundary (makes : Makes lines layout code) {address : Nat} (place : layout.IsPlace address) :
    code.isBoundary address = true := by
  rw [Code.isBoundary, Bool.or_eq_true, beq_iff_eq, makes.length]
  refine place.imp id ?_
  rintro ⟨placed, member, same⟩
  have spans : placed.span ∈ code.instructions.map (·.span) := by
    rw [map_span_of_resolve makes.resolved]
    exact List.mem_map_of_mem member
  obtain ⟨inst, among, here⟩ := List.mem_map.mp spans
  rw [Code.indexAt?, List.findIdx?_isSome, List.any_eq_true]
  exact ⟨inst, among, by simpa [← same, Instruction.span, Placed.span] using congrArg Prod.fst here⟩

/-- An instruction has the operand that its draft was written with, or goes to the label that was
written. -/
theorem written (makes : Makes lines layout code) (member : inst ∈ code.instructions) :
    ∃ line ∈ lines, ∃ draft, readInstruction (Text.trim (stripComment line)) = .ok draft ∧
      inst.opcode = draft.opcode ∧ inst.type1 = draft.type1 ∧ inst.type2 = draft.type2 ∧
      (inst.operand.term? code.symbols = some draft.term ∨
        ∃ label target, draft.term = .label label ∧ inst.operand = .branch target ∧ layout.IsPlace target) := by
  obtain ⟨placed, among, resolved⟩ := mem_of_mapM_ok makes.resolved member
  obtain ⟨line, isLine, draft, isDraft, lays⟩ := makes.lays.placed placed among
  refine ⟨line, isLine, draft, isDraft, ?_⟩
  have operand := lays.operand
  rw [makes.symbols]
  unfold Placed.resolve at resolved
  dsimp only at resolved
  split at resolved
  · next isReady =>
    cases resolved
    rw [isReady] at operand
    exact ⟨lays.opcode, lays.type1, lays.type2, .inl operand⟩
  · next name isLabel =>
    rw [isLabel] at operand
    split at resolved
    · next target found =>
      cases resolved
      obtain ⟨before, after, isLabels, _⟩ := List.lookup_eq_some_iff.mp found
      have place := makes.lays.label (name, target) (by simp [isLabels])
      exact ⟨lays.opcode, lays.type1, lays.type2, .inr ⟨name, target, operand, rfl, place⟩⟩
    · cases resolved

theorem fills (makes : Makes lines layout code) : Fills 0 code.length (code.instructions.map (·.span)) := by
  rw [map_span_of_resolve makes.resolved, makes.length]
  exact makes.lays.fills

end Makes

theorem assembled_of_assemble {name listing : String} {code : Code}
    (assembled : assemble name listing = .ok code) : code.Assembled := by
  obtain ⟨layout, makes⟩ := makes_of_assemble assembled
  obtain ⟨ordered, _, within⟩ := makes.fills.inOrder
  refine ⟨ordered, fun inst member => ?_, fun inst member branches => ?_⟩
  · exact Nat.lt_of_lt_of_le inst.address_lt_nextAddress (within inst member).2
  · obtain ⟨_, _, draft, isDraft, isOpcode, _, _, operand⟩ := makes.written member
    have fits := fits_of_readInstruction isDraft
    rw [← isOpcode] at fits
    rcases operand with isTerm | ⟨_, target, _, isTarget, _⟩
    · rcases fits.aims branches with ⟨name, isLabel⟩ | ⟨isLeave, isDrop⟩
      · exact absurd isLabel (ne_label_of_term? isTerm name)
      · exact .inr ⟨isLeave, eq_of_term?_plain (isDrop ▸ isTerm)⟩
    · exact .inl (by simp [Instruction.isBranch, Instruction.branchTarget?, branches, isTarget])

theorem inOrder_of_assemble {name listing : String} {code : Code}
    (assembled : assemble name listing = .ok code) : InOrder code.instructions :=
  (assembled_of_assemble assembled).ordered

theorem exists_branch_of_aims (aims : inst.Aims) (isBranch : inst.opcode.isBranch = true) :
    (∃ target, inst.operand = .branch target) ∨ inst.opcode = .popenv ∧ inst.operand = .drop := by
  refine (aims isBranch).imp_left fun goes => ?_
  obtain ⟨target, isTarget⟩ := Option.isSome_iff_exists.mp goes
  unfold Instruction.branchTarget? at isTarget
  split at isTarget
  · next target isOperand => exact ⟨target, isOperand⟩
  · cases isTarget

/-- An assembled entry is well formed. -/
theorem wellFormed_of_assemble {name listing : String} {code : Code}
    (assembled : assemble name listing = .ok code) : code.WellFormed := by
  obtain ⟨layout, makes⟩ := makes_of_assemble assembled
  have aims := (assembled_of_assemble assembled).aims
  constructor
  case fills => exact makes.fills
  case target =>
    intro inst member target isTarget
    obtain ⟨_, _, draft, _, _, _, _, isTerm | ⟨_, goes, _, isGoes, place⟩⟩ := makes.written member
    · exact absurd isTerm (by simp [isTarget, Operand.term?])
    · cases isTarget.symm.trans isGoes
      exact makes.isBoundary place
  case child =>
    intro child member
    exact makes.isBoundary (makes.lays.child child (makes.children ▸ member))
  case branches =>
    intro inst member isBranch
    rcases exists_branch_of_aims (aims inst member) (by grind [Opcode.isBranch]) with goes | ⟨isLeave, _⟩
    · exact goes
    · exact absurd isBranch (by simp [isLeave])
  case leaves =>
    intro inst member isLeave
    exact (exists_branch_of_aims (aims inst member) (by rw [isLeave]; rfl)).symm.imp_left And.right
  case stays =>
    intro inst member stays
    obtain ⟨_, _, draft, isDraft, isOpcode, _, _, operand⟩ := makes.written member
    have fits := fits_of_readInstruction isDraft
    rw [← isOpcode] at fits
    rcases operand with isTerm | ⟨label, target, isLabel, _⟩
    · refine ⟨fun isDrop => ?_, fun target isTarget => ?_⟩
      · rw [isDrop] at isTerm
        rw [← Option.some.inj isTerm] at fits
        exact absurd stays (by simp [show inst.opcode = .popenv from fits, Opcode.isBranch])
      · exact absurd isTerm (by simp [isTarget, Operand.term?])
    · rw [isLabel] at fits
      exact absurd stays (by simp [show inst.opcode.isBranch = true from fits])
  case distinct =>
    rw [makes.symbols]
    exact makes.lays.distinct
  case inTable =>
    intro inst member
    obtain ⟨_, _, draft, _, _, _, _, isTerm | ⟨_, target, _, isTarget, _⟩⟩ := makes.written member
    · exact Operand.inTable_of_term? isTerm
    · rw [isTarget]
      trivial

def nestedListing : String :=
  "b [out]\n> inner(2)\npush.s \"x\"\npushenv [end]\n:[start]\npop.v.s self.x\n:[end]\npopenv [start]\n"
    ++ "popenv <drop>\n:[out]"

theorem wellFormed_of_assemble_nestedListing :
    ∃ code, assemble "entry" nestedListing = .ok code ∧ code.instructions.length = 6 ∧
      code.isBoundary 32 = true ∧ code.length = 32 ∧ code.WellFormed := by
  have evaluated : (match assemble "entry" nestedListing with
      | .error _ => false
      | .ok code => decide (code.instructions.length = 6 ∧ code.isBoundary 32 = true ∧ code.length = 32)) =
      true := by decide +kernel
  split at evaluated
  · exact absurd evaluated Bool.false_ne_true
  · next code assembled =>
    obtain ⟨size, boundary, length⟩ := of_decide_eq_true evaluated
    exact ⟨code, assembled, size, boundary, length, wellFormed_of_assemble assembled⟩

end Assembly

end Structuring
