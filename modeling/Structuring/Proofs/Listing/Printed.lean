import Structuring.Proofs.Listing.Literal
import Structuring.Proofs.Listing.Numerals

/-! Printed instructions are read back.

An instruction that was read from a line is printed with a head and an operand. Names may hold quotes,
marks and blanks; they stand in the printed line as they stood in the line they come from, so that the
scan for comments goes the same way.
-/

namespace Structuring

open Bytecode

variable {inst : Instruction} {signal : Signal} {number : Int16} {c : Char} {name : String} {count : UInt16}
  {type : DataType} {opcode : Opcode}

/-! What is printed -/

namespace Bytecode.Instruction

def shownTypes (inst : Instruction) : List DataType :=
  if inst.opcode.isTwiceTyped then [inst.type1, inst.type2]
  else if inst.opcode.isTyped then [inst.type1]
  else []

/-- The types are those that the printed form implies. -/
structure ShowsTypes (inst : Instruction) : Prop where
  second : inst.opcode.isTwiceTyped = false → inst.type2 = inst.type1
  drop : inst.operand = .drop → inst.type1 = .int32

theorem toList_headText (inst : Instruction) :
    inst.headText.toList = Assembly.headOf inst.opcode.mnemonic.toList inst.shownTypes := by
  have typed : inst.opcode.isTwiceTyped = true → inst.opcode.isTyped = true := by
    cases inst.opcode <;> decide
  unfold headText shownTypes Assembly.headOf
  split_ifs <;> simp_all [suffixText]

theorem toList_text_of_operand {symbols : Option Symbols} (noSignal : inst.signal? = none)
    (shown : inst.operand = .none ∨ (inst.operand.text symbols).toList ≠ []) :
    (inst.text symbols).toList = Assembly.spell inst.opcode.mnemonic.toList inst.shownTypes
      (inst.operand.text symbols).toList := by
  unfold text Assembly.spell
  rw [noSignal, ← toList_headText]
  cases isOperand : inst.operand with
  | none => simp [Operand.text]
  | _ => simp_all

theorem toList_text_of_signal {symbols : Option Symbols}
    {number : UInt16} {extra : Option Int32} (isSignal : inst.signal? = some signal)
    (isOperand : inst.operand = .signal number extra) :
    (inst.text symbols).toList = Assembly.spell signal.mnemonic.toList [inst.type1]
      (extra.elim [] fun value => (Number.signedDecimal value.toInt).toList) := by
  unfold text Assembly.spell Assembly.headOf
  rw [isSignal, isOperand]
  cases extra with
  | none => simp [suffixText]
  | some value =>
    rw [Option.elim_some, if_neg (Number.signedDecimal_ne_nil _)]
    simp [suffixText]

end Bytecode.Instruction

/-- Operands that are printed in full: no label is lost, and no character or digit is shown in another
way. -/
def Bytecode.Operand.IsExact : Operand → Prop
  | .branch _ | .string _ | .double _ | .single _ => False
  | _ => True

namespace Assembly

/-! Operands without names -/

/-- A text of visible ASCII characters that starts no string and no comment. -/
theorem clean_of_visible {text : List Char}
    (each : ∀ c ∈ text, 0x20 < c.toNat ∧ c.toNat < 0x7F ∧ c ≠ '"' ∧ c ≠ '#') : Clean text := by
  have notBlank (c : Char) (member : c ∈ text) : Text.isBlank c = false :=
    Text.isBlank_eq_false (each c member).1 (each c member).2.1
  refine ⟨⟨fun c isFirst => notBlank c (List.mem_of_mem_head? isFirst),
    fun c isLast => notBlank c (List.mem_of_getLast? isLast)⟩, fun member => ?_, _, scan_outside ?_⟩
  · exact absurd (notBlank _ member) (by decide)
  · exact fun c member => (each c member).2.2

theorem visible_of_bounds (low : 0x24 ≤ c.toNat) (high : c.toNat < 0x7F) :
    0x20 < c.toNat ∧ c.toNat < 0x7F ∧ c ≠ '"' ∧ c ≠ '#' := by
  refine ⟨by omega, high, ?_, ?_⟩ <;>
  · rintro rfl
    exact absurd low (by decide)

theorem clean_decimal (value : Nat) : Clean (Number.decimal value).toList :=
  clean_of_visible fun c member => by
    have := Number.bounds_of_mem_decimal member
    exact visible_of_bounds (by omega) (by omega)

theorem clean_signedDecimal (value : Int) : Clean (Number.signedDecimal value).toList :=
  clean_of_visible fun c member => by
    rcases Number.bounds_of_mem_signedDecimal member with bounds | rfl
    · exact visible_of_bounds (by omega) (by omega)
    · decide

/-! Variables -/

theorem scopeText_spec (number : Int16) :
    (∀ c ∈ (scopeText number).toList, 0x2D ≤ c.toNat ∧ c.toNat < 0x7F ∧ c ≠ '.') ∧
      (scopeText number).toList ≠ [] := by
  unfold scopeText
  split
  · next scope _ =>
    exact ⟨List.forall_iff_forall_mem.mp (by cases scope <;> decide), by cases scope <;> decide⟩
  · refine ⟨fun c member => ?_, Number.signedDecimal_ne_nil _⟩
    rcases Number.bounds_of_mem_signedDecimal member with bounds | rfl
    · refine ⟨by omega, by omega, ?_⟩
      rintro rfl
      exact absurd bounds (by decide)
    · decide

theorem eq_of_scopeOfName? {text : String} {scope : Scope} (found : Scope.ofName? text = some scope) :
    text = scope.name := by
  have same := List.find?_some found
  exact (eq_of_beq same).symm

theorem scopeOfName?_signedDecimal (value : Int) : Scope.ofName? (Number.signedDecimal value) = none := by
  cases isScope : Scope.ofName? (Number.signedDecimal value) with
  | none => rfl
  | some scope =>
    have letter : scope.name.toList.any (0x39 < ·.toNat) = true := by cases scope <;> decide
    obtain ⟨c, member, high⟩ := List.any_eq_true.mp letter
    have high : 0x39 < c.toNat := of_decide_eq_true high
    rw [← eq_of_scopeOfName? isScope] at member
    rcases Number.bounds_of_mem_signedDecimal member with bounds | rfl
    · omega
    · exact absurd high (by decide)

theorem readVariable_scopeText (number : Int16) (name : List Char) :
    readVariable ((scopeText number).toList ++ '.' :: name) = .ok (.var (String.ofList name) number) := by
  have isSplit : Text.splitOnce? (· == '.') ((scopeText number).toList ++ '.' :: name) =
      some ((scopeText number).toList, name) :=
    Text.splitOnce?_append '.' name
      (fun c member => by simpa using ((scopeText_spec number).1 c member).2.2) rfl
  rw [readVariable, isSplit]
  simp only [require, bind, Except.bind, String.ofList_toList]
  cases isScope : Scope.ofNumber? number with
  | some scope =>
    have isName : Scope.ofName? scope.name = some scope := by cases scope <;> rfl
    have isNumber := List.find?_some isScope
    rw [show scopeText number = scope.name by simp [scopeText, isScope], isName, ← eq_of_beq isNumber]
    rfl
  | none =>
    rw [show scopeText number = Number.signedDecimal number.toInt by simp [scopeText, isScope],
      scopeOfName?_signedDecimal, readNumber, Number.readInt16?_signedDecimal]
    rfl

theorem not_mem_of_readScope {scope : List Char}
    (read : (∃ known, Scope.ofName? (String.ofList scope) = some known ∧ number = known.number) ∨
      Number.readInt16? scope = some number) : '"' ∉ scope := by
  intro member
  rcases read with ⟨known, isKnown, _⟩ | isNumber
  · have noQuote : '"' ∉ known.name.toList := by cases known <;> decide
    rw [← eq_of_scopeOfName? isKnown, String.toList_ofList] at noQuote
    exact noQuote member
  · obtain ⟨value, read, _⟩ := Option.bind_eq_some_iff.mp isNumber
    exact absurd (Number.mem_of_readInt? read member) (by decide)

theorem clean_variable {text : List Char} (clean : Clean text)
    (read : readVariable text = .ok (.var name number)) :
    Clean ((scopeText number).toList ++ '.' :: name.toList) := by
  obtain ⟨scope, rest, known, isSplit, isScope, same⟩ := eq_of_readVariable read
  cases same
  rw [String.toList_ofList]
  obtain ⟨_, dot, isDot, rfl⟩ := Text.eq_of_splitOnce? isSplit
  obtain rfl : dot = '.' := by simpa using isDot
  obtain ⟨visible, nonempty⟩ := scopeText_spec number
  obtain ⟨state, scans⟩ := clean.scans
  rw [List.append_cons] at scans
  have noQuote : '"' ∉ scope ++ ['.'] := by simpa using not_mem_of_readScope isScope
  have inner := scan_behind noQuote scans
  have plain : ∀ c ∈ (scopeText number).toList ++ ['.'], 0x20 < c.toNat ∧ c.toNat < 0x7F ∧ c ≠ '"' ∧ c ≠ '#' := by
    intro c member
    rcases List.mem_append.mp member with inScope | isDot
    · have bounds := visible c inScope
      exact visible_of_bounds (by omega) bounds.2.1
    · rw [List.mem_singleton.mp isDot]
      decide
  have head := clean_of_visible plain
  rw [List.append_cons]
  refine ⟨⟨fun c isFirst => ?_, fun c isLast => ?_⟩, fun member => ?_, state, ?_⟩
  · rw [List.head?_append_of_ne_nil _ (by simp)] at isFirst
    exact head.trimmed.first c isFirst
  · by_cases isNil : rest = []
    · rw [isNil, List.append_nil] at isLast
      exact head.trimmed.last c isLast
    · rw [List.getLast?_append_of_ne_nil _ isNil] at isLast
      refine clean.trimmed.last c ?_
      rwa [List.append_cons, List.getLast?_append_of_ne_nil _ isNil]
  · rcases List.mem_append.mp member with inHead | inName
    · exact head.oneLine inHead
    · exact clean.oneLine (by simp [inName])
  · rw [scan_append, scan_outside fun c member => (plain c member).2.2]
    exact inner

/-! Calls -/

theorem readCall_text {name : List Char} (trimmed : Text.Trimmed name) (noBracket : '(' ∉ name)
    (count : UInt16) :
    readCall (name ++ '(' :: ((Number.decimal count.toNat).toList ++ [')'])) =
      .ok (.call (String.ofList name) count) := by
  have isSplit : Text.splitOnce? (· == '(') (name ++ '(' :: ((Number.decimal count.toNat).toList ++ [')'])) =
      some (name, (Number.decimal count.toNat).toList ++ [')']) := by
    refine Text.splitOnce?_append '(' _ (fun c member => beq_eq_false_iff_ne.mpr ?_) rfl
    rintro rfl
    exact noBracket member
  rw [readCall, isSplit]
  simp only [require, bind, Except.bind, Text.dropLast?_append, (clean_decimal _).trimmed.trim_eq, readNumber,
    Number.readUInt16?_decimal, trimmed.trim_eq]
  rfl

theorem clean_call {text : List Char} (clean : Clean text) (read : readCall text = .ok (.call name count)) :
    Text.Trimmed name.toList ∧ '(' ∉ name.toList ∧
      Clean (name.toList ++ '(' :: ((Number.decimal count.toNat).toList ++ [')'])) := by
  obtain ⟨before, rest, digits, number, isSplit, _, _, same⟩ := eq_of_readCall read
  cases same
  rw [String.toList_ofList]
  obtain ⟨noBracket, bracket, isBracket, rfl⟩ := Text.eq_of_splitOnce? isSplit
  obtain ⟨state, scans⟩ := clean.scans
  have name := clean_trim [] (bracket :: rest) scans List.not_mem_nil fun member =>
    clean.oneLine (by simp [member])
  have visible : ∀ c ∈ '(' :: ((Number.decimal count.toNat).toList ++ [')']),
      0x20 < c.toNat ∧ c.toNat < 0x7F ∧ c ≠ '"' ∧ c ≠ '#' := by
    intro c member
    rcases List.mem_cons.mp member with rfl | member
    · decide
    · rcases List.mem_append.mp member with isDigit | isLast
      · have := Number.bounds_of_mem_decimal isDigit
        exact visible_of_bounds (by omega) (by omega)
      · rw [List.mem_singleton.mp isLast]
        decide
  refine ⟨name.trimmed, fun member => ?_, ⟨fun c isFirst => ?_, fun c isLast => ?_⟩, fun member => ?_, ?_⟩
  · exact absurd (noBracket _ (Text.mem_of_mem_trim member)) (by decide)
  · cases isName : Text.trim before with
    | nil =>
      rw [isName] at isFirst
      cases isFirst
      decide
    | cons first more =>
      rw [isName] at isFirst
      exact name.trimmed.first c (by rw [isName]; exact isFirst)
  · rw [← List.cons_append, ← List.append_assoc, List.getLast?_concat] at isLast
    cases isLast
    decide
  · exact (List.mem_append.mp member).elim name.oneLine (clean_of_visible visible).oneLine
  · obtain ⟨middle, scans⟩ := name.scans
    obtain ⟨next, last⟩ := exists_scan_of_not_mem (fun member => (visible _ member).2.2.2 rfl) middle
    exact ⟨next, by rw [scan_append, scans]; exact last⟩

/-! Operands -/

theorem exists_var_of_term? {symbols : Symbols} {operand : Operand} {scope : Int16}
    (isTerm : operand.term? symbols = some (.var name scope)) :
    ∃ id, operand = .var id scope ∧ symbols.variableNames[id]? = some name := by
  cases operand <;> simp_all [Operand.term?]

theorem exists_call_of_term? {symbols : Symbols} {operand : Operand}
    (isTerm : operand.term? symbols = some (.call name count)) :
    ∃ id, operand = .call id count ∧ symbols.functionNames[id]? = some name := by
  cases operand <;> simp_all [Operand.term?]

structure Shown (symbols : Symbols) (operand : Operand) (read : List Char → Except Fault Term) (term : Term) :
    Prop where
  clean : Clean (operand.text (some symbols)).toList
  read : read (operand.text (some symbols)).toList = .ok term
  nonempty : operand = .none ∨ (operand.text (some symbols)).toList ≠ []

variable {symbols : Symbols} {operand : Operand} {text : List Char} {term : Term}

theorem Shown.of_text {read : List Char → Except Fault Term} (shown : String)
    (isText : operand.text (some symbols) = shown) (clean : Clean shown.toList)
    (reads : read shown.toList = .ok term) (nonempty : shown.toList ≠ []) :
    Shown symbols operand read term :=
  ⟨isText ▸ clean, isText ▸ reads, .inr (isText ▸ nonempty)⟩

theorem nameText_eq {table : NameTable} {id : Nat} (mark : String)
    (found : table[id]? = some name) : nameText (some table) mark id = name := by
  simp [nameText, found]

theorem shown_of_readVariable (clean : Clean text) (read : readVariable text = .ok term)
    (isTerm : operand.term? symbols = some term) : Shown symbols operand readVariable term := by
  obtain ⟨_, name, number, _, _, rfl⟩ := eq_of_readVariable read
  obtain ⟨id, rfl, found⟩ := exists_var_of_term? isTerm
  have isText : (scopeText number ++ "." ++ String.ofList name).toList =
      (scopeText number).toList ++ '.' :: (String.ofList name).toList := by simp
  refine .of_text _ (by rw [Operand.text, Option.map_some, nameText_eq "var" found]) ?_ ?_ (by simp [isText])
  · rw [isText]
    exact clean_variable clean read
  · rw [isText, readVariable_scopeText, String.ofList_toList]

theorem shown_of_readCall (clean : Clean text) (read : readCall text = .ok term)
    (isTerm : operand.term? symbols = some term) : Shown symbols operand readCall term := by
  obtain ⟨name, _, _, count, _, _, _, rfl⟩ := eq_of_readCall read
  obtain ⟨id, rfl, found⟩ := exists_call_of_term? isTerm
  obtain ⟨trimmed, noBracket, printed⟩ := clean_call clean read
  have isText : (String.ofList (Text.trim name) ++ "(" ++ Number.decimal count.toNat ++ ")").toList =
      (String.ofList (Text.trim name)).toList ++ '(' :: ((Number.decimal count.toNat).toList ++ [')']) := by
    simp
  refine .of_text _ (by rw [Operand.text, Option.map_some, nameText_eq "func" found]) ?_ ?_ (by simp [isText])
  · rw [isText]
    exact printed
  · rw [isText, readCall_text trimmed noBracket, String.ofList_toList]

theorem shown_of_readNumber {α : Type} {read? : List Char → Option α} {build : α → Operand}
    (decimal : α → String) (clean : ∀ value, Clean (decimal value).toList)
    (nonempty : ∀ value, (decimal value).toList ≠ [])
    (reads : ∀ value, read? (decimal value).toList = some value)
    (shows : ∀ value, (build value).text (some symbols) = decimal value)
    (read : (readNumber read? text).map (fun value => Term.plain (build value)) = .ok term)
    (isTerm : operand.term? symbols = some term) :
    Shown symbols operand (fun text => (readNumber read? text).map fun value => .plain (build value)) term := by
  obtain ⟨value, _, rfl⟩ := exists_of_map_eq_ok read
  rw [eq_of_term?_plain isTerm]
  refine .of_text (decimal value) (shows value) (clean value) ?_ (nonempty value)
  rw [readNumber, reads]
  rfl

theorem shown_of_readBool (read : (readBool text).map (fun value => Term.plain (.bool value)) = .ok term)
    (isTerm : operand.term? symbols = some term) :
    Shown symbols operand (fun text => (readBool text).map fun value => .plain (.bool value)) term := by
  obtain ⟨value, _, rfl⟩ := exists_of_map_eq_ok read
  rw [eq_of_term?_plain isTerm]
  cases value with
  | false => exact .of_text "false" rfl (clean_of_visible (List.forall_iff_forall_mem.mp (by decide))) rfl (by decide)
  | true => exact .of_text "true" rfl (clean_of_visible (List.forall_iff_forall_mem.mp (by decide))) rfl (by decide)

theorem shown_of_readPush (clean : Clean text) (read : readPush type text = .ok term)
    (isTerm : operand.term? symbols = some term) (exact : operand.IsExact) :
    Shown symbols operand (readPush type) term := by
  cases type with
  | int16 =>
    exact shown_of_readNumber _ (fun value => clean_signedDecimal value.toInt)
      (fun value => Number.signedDecimal_ne_nil value.toInt) Number.readInt16?_signedDecimal (fun _ => rfl)
      read isTerm
  | int32 =>
    exact shown_of_readNumber _ (fun value => clean_signedDecimal value.toInt)
      (fun value => Number.signedDecimal_ne_nil value.toInt) Number.readInt32?_signedDecimal (fun _ => rfl)
      read isTerm
  | int64 =>
    exact shown_of_readNumber _ (fun value => clean_signedDecimal value.toInt)
      (fun value => Number.signedDecimal_ne_nil value.toInt) Number.readInt64?_signedDecimal (fun _ => rfl)
      read isTerm
  | bool => exact shown_of_readBool read isTerm
  | variant => exact shown_of_readVariable clean read isTerm
  | string =>
    obtain ⟨_, _, _, _, rfl⟩ := eq_of_readString read
    obtain ⟨id, rfl, _⟩ := exists_string_of_term? isTerm
    exact exact.elim
  | double | single =>
    obtain ⟨bits, _, rfl⟩ := exists_of_map_eq_ok read
    rw [eq_of_term?_plain isTerm] at exact
    exact exact.elim

theorem shown_of_readComparison (read : readComparison text = .ok term)
    (isTerm : operand.term? symbols = some term) : Shown symbols operand readComparison term := by
  obtain ⟨kind, _, rfl⟩ := exists_of_map_eq_ok read
  rw [eq_of_term?_plain isTerm]
  refine .of_text kind.mnemonic rfl (clean_of_visible (List.forall_iff_forall_mem.mp ?_)) ?_ ?_
  all_goals cases kind <;> decide

theorem shown_of_readDup (read : readDup text = .ok term) (isTerm : operand.term? symbols = some term) :
    Shown symbols operand readDup term := by
  have known : ∃ count, term = .plain (.dup count) := by
    unfold readDup at read
    split at read
    · exact ⟨0, (Except.ok.inj read).symm⟩
    · obtain ⟨count, _, same⟩ := exists_of_map_eq_ok read
      exact ⟨count, same.symm⟩
  obtain ⟨count, rfl⟩ := known
  rw [eq_of_term?_plain isTerm]
  have nonempty := Number.decimal_ne_nil count.toNat
  refine .of_text (Number.decimal count.toNat) rfl (clean_decimal _) ?_ nonempty
  rw [readDup, if_neg (by simpa using nonempty), readNumber, Number.readUInt8?_decimal]
  rfl

theorem shown_of_readOperand (clean : Clean text)
    (read : readOperand opcode type text = .ok term) (isTerm : operand.term? symbols = some term)
    (exact : operand.IsExact) : Shown symbols operand (readOperand opcode type) term := by
  have noLabel := ne_label_of_term? isTerm
  cases opcode with
  | b | bt | bf | pushenv =>
    obtain ⟨name, isLabel⟩ := label_of_readLabelOperand read
    exact absurd isLabel (noLabel name)
  | popenv =>
    simp only [readOperand] at read
    split at read
    · cases read
      rw [eq_of_term?_plain isTerm]
      exact .of_text "<drop>" rfl (clean_of_visible (List.forall_iff_forall_mem.mp (by decide))) rfl (by decide)
    · obtain ⟨name, isLabel⟩ := label_of_readLabelOperand read
      exact absurd isLabel (noLabel name)
  | push | pushloc | pushglb | pushbltn | pushi => exact shown_of_readPush clean read isTerm exact
  | pop => exact shown_of_readVariable clean read isTerm
  | call => exact shown_of_readCall clean read isTerm
  | cmp => exact shown_of_readComparison read isTerm
  | callv =>
    exact shown_of_readNumber _ (fun value => clean_signedDecimal value.toInt)
      (fun value => Number.signedDecimal_ne_nil value.toInt) Number.readInt16?_signedDecimal (fun _ => rfl)
      read isTerm
  | dup => exact shown_of_readDup read isTerm
  | signal => exact absurd read (by simp [readOperand])
  | _ =>
    simp only [readOperand] at read
    split at read
    · cases read
      rw [eq_of_term?_plain isTerm]
      exact ⟨.nil, rfl, .inl rfl⟩
    · cases read

/-! Instructions -/

theorem mem_splitAll (separates : Char → Bool) {text : List Char} (member : c ∈ text) :
    separates c = true ∨ c ∈ (Text.splitAll separates text).1 ∨
      ∃ piece ∈ (Text.splitAll separates text).2, c ∈ piece := by
  induction text with
  | nil => cases member
  | cons first rest ih =>
    rw [Text.splitAll]
    split_ifs <;> grind

theorem not_mem_of_readSuffix {suffix : List Char}
    (read : readSuffix suffix = .ok type) : '"' ∉ suffix := by
  have found := require_eq_ok.mp read
  split at found
  · next c =>
    rintro member
    rw [← List.mem_singleton.mp member] at found
    exact absurd found (by simp [show DataType.ofSuffix? '"' = none from rfl])
  · cases found

theorem not_mem_cutHead {text : List Char} {draft : Draft} (read : readInstruction text = .ok draft) :
    '"' ∉ (cutHead text).1 := by
  rw [readInstruction_eq] at read
  obtain ⟨types, isTypes, read⟩ := exists_of_bind_eq_ok read
  intro member
  rcases mem_splitAll (· == '.') member with isDot | inWord | ⟨piece, isPiece, inPiece⟩
  · exact absurd isDot (by decide)
  · have lower : '"'.isLower = true := by
      rcases eq_of_readDraft read with ⟨_, signal, isSignal, _⟩ | ⟨isOpcode, _⟩
      · exact isLower_signal signal _ (by rwa [← isSignal, String.toList_ofList])
      · exact isLower_mnemonic draft.opcode _ (by rwa [← isOpcode, String.toList_ofList])
    exact absurd lower (by decide)
  · obtain ⟨index, inside, rfl⟩ := List.getElem_of_mem isPiece
    obtain ⟨same, all⟩ := List.forall₂_iff_get.mp (forall₂_of_mapM_ok isTypes)
    exact not_mem_of_readSuffix (all index inside (same ▸ inside)) inPiece

theorem clean_cutHead {text : List Char} {draft : Draft} (clean : Clean text)
    (read : readInstruction text = .ok draft) : Clean (cutHead text).2 := by
  have noQuote := not_mem_cutHead read
  unfold cutHead at noQuote ⊢
  split at noQuote
  · next head rest isSplit =>
    obtain ⟨_, blank, isBlank, rfl⟩ := Text.eq_of_splitOnce? isSplit
    have notQuote : blank ≠ '"' := by
      rintro rfl
      exact absurd isBlank (by decide)
    obtain ⟨state, scans⟩ := clean.scans
    rw [List.append_cons, ← List.append_nil rest] at scans
    refine clean_trim (head ++ [blank]) [] scans ?_ fun member => clean.oneLine (by simp [member])
    simpa [Ne.symm notQuote] using noQuote
  · exact .nil

theorem shownTypes_spec (shows : inst.ShowsTypes) (known : inst.opcode.isTyped = true ∨ inst.operand = .drop) :
    inst.shownTypes[0]?.getD .int32 = inst.type1 ∧
      inst.shownTypes[1]?.getD (inst.shownTypes[0]?.getD .int32) = inst.type2 := by
  unfold Instruction.shownTypes
  split_ifs with isTwice isTyped
  · exact ⟨rfl, rfl⟩
  · exact ⟨rfl, (shows.second (by simpa using isTwice)).symm⟩
  · have isDrop := known.resolve_left isTyped
    exact ⟨(shows.drop isDrop).symm, ((shows.second (by simpa using isTwice)).trans (shows.drop isDrop)).symm⟩

/-- Without a type there is only a place to go to, or an environment to leave. -/
theorem isTyped_or_drop {symbols : Symbols} {operand : Operand} {term : Term}
    (fits : term.Fits opcode) (isTerm : operand.term? symbols = some term) :
    opcode.isTyped = true ∨ operand = .drop := by
  cases isBranch : opcode.isBranch with
  | false => exact .inl (by simp [Opcode.isTyped, isBranch])
  | true =>
    refine .inr ?_
    unfold Term.Fits at fits
    split at fits
    · exact absurd rfl (ne_label_of_term? isTerm _)
    · exact eq_of_term?_plain isTerm
    all_goals simp_all

structure ReadFrom (text : List Char) (symbols : Symbols) (inst : Instruction) (draft : Draft) : Prop where
  clean : Clean text
  read : readInstruction text = .ok draft
  opcode : inst.opcode = draft.opcode
  type1 : inst.type1 = draft.type1
  type2 : inst.type2 = draft.type2
  operand : inst.operand.term? symbols = some draft.term

theorem exists_readFrom {listing : String} {code : Code} (assembled : assemble name listing = .ok code)
    (member : inst ∈ code.instructions) (stays : ∀ target, inst.operand ≠ .branch target) :
    ∃ text draft, ReadFrom text code.symbols inst draft := by
  obtain ⟨layout, makes⟩ := makes_of_assemble assembled
  obtain ⟨line, isLine, draft, read, opcode, type1, type2, isTerm | ⟨_, target, _, goes, _⟩⟩ :=
    makes.written member
  · exact ⟨_, draft, clean_line (Text.not_mem_of_lines _ line isLine), read, opcode, type1, type2, isTerm⟩
  · exact absurd goes (stays target)

/-- An operation is named by its mnemonic, or by the one of its signal. -/
theorem ReadFrom.cases {text : List Char} {symbols : Symbols} {draft : Draft}
    (readFrom : ReadFrom text symbols inst draft) :
    (∃ signal, inst.opcode = .signal ∧ readSignal signal (cutHead text).2 = .ok draft.term) ∨
      inst.signal? = none ∧ readOperand inst.opcode inst.type1 (cutHead text).2 = .ok draft.term := by
  have read := readFrom.read
  rw [readInstruction_eq] at read
  obtain ⟨types, _, read⟩ := exists_of_bind_eq_ok read
  rw [readFrom.opcode, readFrom.type1]
  refine (eq_of_readDraft read).imp (fun ⟨isSignal, signal, _, isTerm⟩ => ⟨signal, isSignal, isTerm⟩)
    fun ⟨_, isTerm⟩ => ⟨?_, isTerm⟩
  unfold Instruction.signal?
  split
  · refine if_neg fun isSignal => ?_
    rw [readFrom.opcode, beq_iff_eq] at isSignal
    exact absurd isTerm (by simp [isSignal, readOperand])
  · rfl

theorem eq_of_readSignal {text : List Char} {term : Term} (read : readSignal signal text = .ok term) :
    ∃ extra, term = .plain (.signal signal.number extra) ∧ (extra.isSome = true ↔ signal = .pushref) := by
  unfold readSignal at read
  split at read
  · next isRef =>
    obtain ⟨value, _, rfl⟩ := exists_of_map_eq_ok read
    exact ⟨some value, rfl, by simp [isRef]⟩
  · next notRef =>
    cases read
    exact ⟨none, rfl, by simp [notRef]⟩

theorem exists_single_of_signal {symbols : Symbols} {term : Term}
    {operand : List Char} (name : String) (isSignal : inst.opcode = .signal)
    (read : readSignal signal operand = .ok term) (isTerm : inst.operand.term? symbols = some term)
    (shows : inst.ShowsTypes) :
    ∃ code copy, assemble name (inst.text (some symbols)) = .ok code ∧
      Single ⟨inst.opcode, inst.type1, inst.type2, term⟩ code copy := by
  obtain ⟨extra, rfl, isRef⟩ := eq_of_readSignal read
  have isOperand := eq_of_term?_plain isTerm
  have isKnown : inst.signal? = some signal := by
    rw [Instruction.signal?, isOperand, isSignal]
    cases signal <;> rfl
  have second := shows.second (by rw [isSignal]; rfl)
  refine exists_single_of_spell name (isLower_signal signal) (signal_ne_nil signal) ?_
    (Instruction.toList_text_of_signal isKnown isOperand) ?_ (by simp)
  · cases extra with
    | none => exact .nil
    | some value => exact clean_signedDecimal value.toInt
  · rw [String.ofList_toList, readDraft_signal, isSignal, second]
    cases extra with
    | none =>
      have notRef : signal ≠ .pushref := by simpa using isRef
      simp [readSignal, notRef, Except.map]
    | some value =>
      have isRef : signal = .pushref := by simpa using isRef
      simp [readSignal, isRef, Except.map, readNumber, Number.readInt32?_signedDecimal, require]

/-- Printing an instruction and reading it back gives the instruction again. -/
theorem assemble_printed_instruction {name listing : String} {code : Code}
    (assembled : assemble name listing = .ok code) {inst : Instruction} (member : inst ∈ code.instructions)
    (exact : inst.operand.IsExact) (shows : inst.ShowsTypes) (other : String) :
    ∃ again copy, assemble other (inst.text (some code.symbols)) = .ok again ∧
      again.instructions = [copy] ∧ copy.opcode = inst.opcode ∧ copy.type1 = inst.type1 ∧
      copy.type2 = inst.type2 ∧
      ∃ term, inst.operand.term? code.symbols = some term ∧ copy.operand.term? again.symbols = some term := by
  have stays (target : Nat) : inst.operand ≠ .branch target := fun goes => by simp [goes, Operand.IsExact] at exact
  obtain ⟨text, draft, readFrom⟩ := exists_readFrom assembled member stays
  have single : ∃ again copy, assemble other (inst.text (some code.symbols)) = .ok again ∧
      Single ⟨inst.opcode, inst.type1, inst.type2, draft.term⟩ again copy := by
    rcases readFrom.cases with ⟨signal, isSignal, read⟩ | ⟨noSignal, read⟩
    · exact exists_single_of_signal other isSignal read readFrom.operand shows
    · have shown := shown_of_readOperand (clean_cutHead readFrom.clean readFrom.read) read readFrom.operand exact
      have types := shownTypes_spec shows (isTyped_or_drop (fits_of_readOperand read) readFrom.operand)
      refine exists_single_of_spell other (isLower_mnemonic inst.opcode) (mnemonic_ne_nil inst.opcode)
        shown.clean (Instruction.toList_text_of_operand noSignal shown.nonempty) ?_
        (ne_label_of_term? readFrom.operand)
      rw [String.ofList_toList, readDraft_mnemonic, types.2, types.1, shown.read]
      rfl
  obtain ⟨again, copy, assembled, single⟩ := single
  exact ⟨again, copy, assembled, single.instructions, single.opcode, single.type1, single.type2, draft.term,
    readFrom.operand, single.operand⟩

def quotedCall : String := "call.v.v  \"f # \" ( 2 ) # \"call"

theorem assemble_printed_instruction_quotedCall :
    ∃ code inst, assemble "entry" quotedCall = .ok code ∧ inst ∈ code.instructions ∧
      inst.operand.IsExact ∧ inst.ShowsTypes ∧ inst.text (some code.symbols) = "call.v \"f # \"(2)" ∧
      ∃ again copy, assemble "again" "call.v \"f # \"(2)" = .ok again ∧ again.instructions = [copy] ∧
        copy.opcode = .call ∧ copy.type1 = .variant ∧ copy.type2 = .variant ∧
        copy.operand.term? again.symbols = some (.call "\"f # \"" 2) := by
  obtain ⟨inst, isInst⟩ : ∃ inst : Instruction, ⟨0, .call, .variant, .variant, .call 0 2⟩ = inst := ⟨_, rfl⟩
  have assembled : assemble "entry" quotedCall =
      .ok ⟨"entry", [inst], 8, [], ⟨[], ["\"f # \""], []⟩⟩ := by
    subst isInst
    decide +kernel
  subst isInst
  have shows : Instruction.ShowsTypes ⟨0, .call, .variant, .variant, .call 0 2⟩ := ⟨fun _ => rfl, by simp⟩
  have printed : Instruction.text (some ⟨[], ["\"f # \""], []⟩) ⟨0, .call, .variant, .variant, .call 0 2⟩ =
      "call.v \"f # \"(2)" := by decide +kernel
  obtain ⟨again, copy, done, single, opcode, type1, type2, term, isTerm, same⟩ :=
    assemble_printed_instruction assembled (.head _) trivial shows "again"
  cases isTerm
  exact ⟨_, _, assembled, .head _, trivial, shows, printed, again, copy, printed ▸ done, single, opcode, type1,
    type2, same⟩

/-! Strings -/

def reread (c : Char) : List Char :=
  if c = '\r' then ['r']
  else if c.toNat = 0 then ['0']
  else if Text.isVisible c ∨ c = '\n' ∨ c = '\t' then [c]
  else 'u' :: '\x7b' :: (Nat.toDigits 16 c.toNat ++ ['\x7d'])

theorem exists_digitChar_of_mem {base value : Nat} (large : 1 < base)
    (member : c ∈ Nat.toDigits base value) : ∃ digit < base, c = Nat.digitChar digit := by
  induction value using Nat.strongRecOn with
  | ind value ih =>
    rw [Nat.toDigits_eq_if large] at member
    split_ifs at member with small
    · exact ⟨value, small, List.mem_singleton.mp member⟩
    · rcases List.mem_append.mp member with before | last
      · exact ih (value / base) (Nat.div_lt_self (by omega) large) before
      · exact ⟨value % base, Nat.mod_lt _ (by omega), List.mem_singleton.mp last⟩

theorem writes_hexDigits (value : Nat) : Writes (Number.hexDigits value).toList (Nat.toDigits 16 value) := by
  rw [Number.hexDigits, String.toList_ofList]
  refine .plains fun c member => ?_
  obtain ⟨digit, small, rfl⟩ := exists_digitChar_of_mem (by decide) member
  clear member
  revert digit
  decide

theorem writes_quoteChar (c : Char) : Writes (Text.quoteChar c) (reread c) := by
  unfold Text.quoteChar
  split_ifs with isQuote isEscape isFeed isTab isReturn isNull isVisible
  · subst isQuote
    exact .escaped (c := '"') (by decide)
  · subst isEscape
    exact .escaped (c := '\\') (by decide)
  · subst isFeed
    exact .escaped (c := 'n') (by decide)
  · subst isTab
    exact .escaped (c := 't') (by decide)
  · subst isReturn
    exact .escaped (c := 'r') (by decide)
  · rw [reread, if_neg isReturn, if_pos isNull]
    exact .escaped (c := '0') (by decide)
  · rw [reread, if_neg isReturn, if_neg isNull, if_pos (.inl isVisible)]
    exact .plain isEscape isQuote isFeed
  · rw [reread, if_neg isReturn, if_neg isNull, if_neg (by simp [isVisible, isFeed, isTab])]
    have opened : Writes ("\\u\x7b".toList) ['u', '\x7b'] :=
      (Writes.escaped (c := 'u') (by decide)).append (.plain (c := '\x7b') (by decide) (by decide) (by decide))
    have closed : Writes "\x7d".toList ['\x7d'] := .plain (by decide) (by decide) (by decide)
    exact (opened.append (writes_hexDigits c.toNat)).append closed

theorem reread_eq_iff (c : Char) : reread c = [c] ↔ Text.isVisible c = true ∨ c = '\n' ∨ c = '\t' := by
  unfold reread
  split_ifs with isReturn isNull known
  · subst isReturn
    decide
  · obtain rfl : c = Char.ofNat 0 := by rw [← isNull, Char.ofNat_toNat]
    decide
  · simp [known]
  · simp [known]

theorem reread_ne_nil (c : Char) : reread c ≠ [] := by
  unfold reread
  split_ifs <;> simp

theorem flatMap_eq_self_iff {f : Char → List Char} (nonempty : ∀ c, f c ≠ []) (text : List Char) :
    text.flatMap f = text ↔ ∀ c ∈ text, f c = [c] := by
  refine ⟨fun same => ?_, fun each => ?_⟩
  · have long (text : List Char) : text.length ≤ (text.flatMap f).length := by
      induction text with
      | nil => simp
      | cons c rest ih =>
        have := List.length_pos_iff.mpr (nonempty c)
        simp only [List.flatMap_cons, List.length_append, List.length_cons]
        omega
    induction text with
    | nil => simp
    | cons c rest ih =>
      have pos := List.length_pos_iff.mpr (nonempty c)
      have total := congrArg List.length same
      have least := long rest
      simp only [List.flatMap_cons, List.length_append, List.length_cons] at total
      obtain ⟨d, isFirst⟩ := List.length_eq_one_iff.mp (show (f c).length = 1 by omega)
      rw [List.flatMap_cons, isFirst, List.singleton_append, List.cons.injEq] at same
      exact List.forall_mem_cons.mpr ⟨by rw [isFirst, same.1], ih same.2⟩
  · induction text with
    | nil => rfl
    | cons c rest ih =>
      obtain ⟨first, later⟩ := List.forall_mem_cons.mp each
      rw [List.flatMap_cons, first, ih later, List.singleton_append]

theorem pushes_of_readOperand {text : List Char} {value : String}
    (read : readOperand opcode type text = .ok (.string value)) : opcode ∈ pushes ∧ type = .string := by
  have noLabel : readLabelOperand text ≠ .ok (.string value) := fun read => by
    obtain ⟨name, same⟩ := label_of_readLabelOperand read
    cases same
  have noVariable : readVariable text ≠ .ok (.string value) := fun read => by
    obtain ⟨_, _, _, _, _, same⟩ := eq_of_readVariable read
    cases same
  cases opcode with
  | b | bt | bf | pushenv => exact absurd read noLabel
  | popenv =>
    simp only [readOperand] at read
    split at read
    · cases read
    · exact absurd read noLabel
  | push | pushloc | pushglb | pushbltn | pushi =>
    refine ⟨by decide, ?_⟩
    cases type with
    | string => rfl
    | variant => exact absurd read noVariable
    | _ =>
      obtain ⟨_, _, same⟩ := exists_of_map_eq_ok read
      cases same
  | pop => exact absurd read noVariable
  | call =>
    obtain ⟨_, _, _, _, _, _, _, same⟩ := eq_of_readCall read
    cases same
  | cmp | callv =>
    obtain ⟨_, _, same⟩ := exists_of_map_eq_ok read
    cases same
  | dup =>
    simp only [readOperand, readDup] at read
    split at read
    · cases read
    · obtain ⟨_, _, same⟩ := exists_of_map_eq_ok read
      cases same
  | signal => exact absurd read (by simp [readOperand])
  | _ =>
    simp only [readOperand] at read
    split at read <;> cases read

theorem shownTypes_of_mem_pushes (isPush : inst.opcode ∈ pushes) : inst.shownTypes = [inst.type1] := by
  simp only [pushes, List.mem_cons, List.not_mem_nil, or_false] at isPush
  obtain is | is | is | is | is := isPush <;>
    simp [Instruction.shownTypes, is, Opcode.isTwiceTyped, Opcode.isTyped, Opcode.isBranch]

/-- A string that is printed can always be read, and is read as the same string if and only if each of
its characters is visible, a line feed or a tab. -/
theorem assemble_printed_string {name listing : String} {code : Code}
    (assembled : assemble name listing = .ok code) {inst : Instruction} (member : inst ∈ code.instructions)
    {id : Nat} (isString : inst.operand = .string id) (other : String) :
    ∃ value again copy copyId found, code.symbols.stringValues[id]? = some value ∧
      assemble other (inst.text (some code.symbols)) = .ok again ∧ again.instructions = [copy] ∧
      copy.operand = .string copyId ∧ again.symbols.stringValues[copyId]? = some found ∧
      (found = value ↔ ∀ c ∈ value.toList, Text.isVisible c = true ∨ c = '\n' ∨ c = '\t') := by
  obtain ⟨text, draft, readFrom⟩ := exists_readFrom assembled member (by simp [isString])
  have isTerm := readFrom.operand
  rw [isString] at isTerm
  obtain ⟨value, isValue, same⟩ := Option.map_eq_some_iff.mp isTerm
  rcases readFrom.cases with ⟨signal, _, read⟩ | ⟨noSignal, read⟩
  · obtain ⟨_, isSignal, _⟩ := eq_of_readSignal read
    exact absurd (same.trans isSignal) (by simp)
  · rw [← same] at read
    obtain ⟨isPush, isType⟩ := pushes_of_readOperand read
    have writes : Writes (value.toList.flatMap Text.quoteChar) (value.toList.flatMap reread) :=
      .flatMap fun c _ => writes_quoteChar c
    have isText : (inst.operand.text (some code.symbols)).toList =
        literal (value.toList.flatMap Text.quoteChar) := by
      simp [isString, Operand.text, stringText, isValue, Text.quote, literal]
    have isListing : (inst.text (some code.symbols)).toList =
        spell inst.opcode.mnemonic.toList [.string] (literal (value.toList.flatMap Text.quoteChar)) := by
      rw [Instruction.toList_text_of_operand noSignal (.inr (by simp [isText, literal])), isText,
        shownTypes_of_mem_pushes isPush, isType]
    have isDraft := writes.readDraft_literal inst.opcode isPush
    rw [← String.ofList_toList (s := inst.opcode.mnemonic)] at isDraft
    obtain ⟨again, copy, assembled, single⟩ := exists_single_of_spell other (isLower_mnemonic inst.opcode)
      (mnemonic_ne_nil inst.opcode) writes.clean_literal isListing isDraft (by simp)
    obtain ⟨copyId, isCopy, found⟩ := exists_string_of_term? single.operand
    refine ⟨value, again, copy, copyId, _, isValue, assembled, single.instructions, isCopy, found, ?_⟩
    rw [← String.toList_inj, String.toList_ofList, flatMap_eq_self_iff reread_ne_nil]
    exact forall₂_congr fun c _ => reread_eq_iff c

def returnListing : String := "push.s \"a\rb\""

theorem assemble_returnListing :
    assemble "entry" returnListing =
      .ok ⟨"entry", [⟨0, .push, .string, .string, .string 0⟩], 8, [], ⟨[], [], ["a\rb"]⟩⟩ := by
  decide +kernel

theorem assemble_printed_string_returnListing :
    ∃ code inst value again copy copyId found, assemble "entry" returnListing = .ok code ∧
      inst ∈ code.instructions ∧ inst.operand = .string 0 ∧ code.symbols.stringValues[0]? = some value ∧
      assemble "again" (inst.text (some code.symbols)) = .ok again ∧ again.instructions = [copy] ∧
      copy.operand = .string copyId ∧ again.symbols.stringValues[copyId]? = some found ∧ found ≠ value := by
  obtain ⟨value, again, copy, copyId, found, isValue, done, single, isString, isFound, same⟩ :=
    assemble_printed_string assemble_returnListing (.head _) rfl "again"
  refine ⟨_, _, value, again, copy, copyId, found, assemble_returnListing, .head _, rfl, isValue, done, single,
    isString, isFound, fun is => ?_⟩
  cases isValue
  exact absurd (same.mp is '\r' (by decide)) (by decide)

/-- Not every string that is printed is read back. -/
theorem printed_string_changes :
    ¬∀ (name listing other : String) (code again : Code) (inst copy : Instruction) (id copyId : Nat),
      assemble name listing = .ok code → inst ∈ code.instructions → inst.operand = .string id →
      assemble other (inst.text (some code.symbols)) = .ok again → copy ∈ again.instructions →
      copy.operand = .string copyId →
      again.symbols.stringValues[copyId]? = code.symbols.stringValues[id]? := by
  intro always
  have copied : assemble "again" (Instruction.text (some ⟨[], [], ["a\rb"]⟩) ⟨0, .push, .string, .string, .string 0⟩) =
      .ok ⟨"again", [⟨0, .push, .string, .string, .string 0⟩], 8, [], ⟨[], [], ["arb"]⟩⟩ := by
    decide +kernel
  have same := always _ _ _ _ _ _ _ 0 0 assemble_returnListing (.head _) rfl copied (.head _) rfl
  exact absurd same (by decide)

end Assembly

end Structuring
