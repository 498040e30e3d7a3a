import Mathlib.Data.List.DropRight
import Structuring.Proofs.Assembled

/-! Reading what is written plainly.

A text without blanks at its ends and without a comment is read as it stands. If it is a mnemonic with
types and an operand after a space, then the operand decides what is read.
-/

namespace Structuring

open Bytecode

variable {text operand before after line : List Char} {separates : Char → Bool} {c : Char}
  {next state : Bool × Bool} {listing : String}

namespace Text

/-! Blanks at the ends -/

structure Trimmed (text : List Char) : Prop where
  first : ∀ c ∈ text.head?, isBlank c = false
  last : ∀ c ∈ text.getLast?, isBlank c = false

theorem isBlank_eq_false (low : 0x20 < c.toNat) (high : c.toNat < 0x7F) : isBlank c = false := by
  simp only [isBlank, blankRanges, CodeRanges.contains, List.any_cons, List.any_nil, Bool.or_false,
    Bool.or_eq_false_iff, Bool.and_eq_false_iff, decide_eq_false_iff_not]
  omega

theorem trimEnd_eq (text : List Char) : trimEnd text = text.rdropWhile isBlank := rfl

theorem trim_around (before after : List Char) (blank : ∀ c ∈ before ++ after, isBlank c = true)
    (trimmed : Trimmed text) : trim (before ++ text ++ after) = text := by
  have start : trimStart (before ++ text ++ after) = trimStart (text ++ after) := by
    rw [List.append_assoc]
    exact List.dropWhile_append_of_pos fun c member => blank c (List.mem_append_left _ member)
  have stop (kept : List Char) : trimEnd (kept ++ after) = trimEnd kept := by
    rw [trimEnd, List.reverse_append, List.dropWhile_append_of_pos, trimEnd]
    exact fun c member => blank c (List.mem_append_right _ (List.mem_reverse.mp member))
  cases text with
  | nil =>
    have none := List.dropWhile_eq_nil_iff.mpr fun c member => blank c (List.mem_append_right _ member)
    rw [trim, start, trimStart, List.nil_append, none]
    rfl
  | cons c rest =>
    have notBlank : isBlank c = false := trimmed.first c rfl
    rw [trim, start, trimStart, List.cons_append, List.dropWhile_cons_of_neg (by simp [notBlank]),
      ← List.cons_append, stop, trimEnd_eq, List.rdropWhile_eq_self_iff]
    intro nonempty
    simp [trimmed.last _ (List.getLast_mem_getLast? nonempty)]

theorem Trimmed.trim_eq (trimmed : Trimmed text) : trim text = text := by
  simpa using trim_around [] [] (by simp) trimmed

theorem trimmed_trim (text : List Char) : Trimmed (trim text) := by
  refine ⟨fun c isFirst => ?_, fun c isLast => ?_⟩
  · obtain ⟨rest, isTrim⟩ := List.head?_eq_some_iff.mp isFirst
    obtain ⟨after, isText⟩ := List.rdropWhile_prefix isBlank (trimStart text)
    rw [← trimEnd_eq, ← trim, isTrim] at isText
    have starts := List.head?_dropWhile_not isBlank text
    rw [← trimStart, ← isText] at starts
    simpa using starts
  · obtain ⟨nonempty, same⟩ := List.mem_getLast?_eq_getLast isLast
    rw [same]
    exact Bool.eq_false_iff.mpr (List.rdropWhile_last_not isBlank (trimStart text) nonempty)

theorem exists_around_trim (text : List Char) :
    ∃ before after, text = before ++ trim text ++ after ∧ ∀ c ∈ before ++ after, isBlank c = true := by
  refine ⟨text.takeWhile isBlank, (trimStart text).rtakeWhile isBlank, ?_, fun c member => ?_⟩
  · rw [trim, trimEnd_eq, List.append_assoc, List.rdropWhile_append_rtakeWhile, trimStart,
      List.takeWhile_append_dropWhile]
  · rcases List.mem_append.mp member with before | after
    · exact List.mem_takeWhile_imp before
    · exact List.mem_rtakeWhile_imp after

theorem mem_of_mem_trim (member : c ∈ trim text) : c ∈ text := by
  obtain ⟨before, after, isText, _⟩ := exists_around_trim text
  rw [isText]
  simp [member]

/-! Separators -/

theorem splitOnce?_append (c : Char) (after : List Char) (none : ∀ c ∈ before, separates c = false)
    (isFirst : separates c = true) : splitOnce? separates (before ++ c :: after) = some (before, after) := by
  induction before with
  | nil => simp [splitOnce?, isFirst]
  | cons first rest ih =>
    rw [List.cons_append, splitOnce?, none first (.head _), ih fun c member => none c (.tail _ member)]
    rfl

theorem splitOnce?_eq_none (none : ∀ c ∈ text, separates c = false) : splitOnce? separates text = .none := by
  induction text with
  | nil => rfl
  | cons first rest ih =>
    rw [splitOnce?, none first (.head _), ih fun c member => none c (.tail _ member)]
    rfl

theorem eq_of_splitOnce? (isSplit : splitOnce? separates text = some (before, after)) :
    (∀ c ∈ before, separates c = false) ∧ ∃ c, separates c = true ∧ text = before ++ c :: after := by
  induction text generalizing before with
  | nil => exact absurd isSplit (by simp [splitOnce?])
  | cons first rest ih =>
    rw [splitOnce?] at isSplit
    split at isSplit
    · next isFirst =>
      cases isSplit
      exact ⟨by simp, first, isFirst, rfl⟩
    · next notFirst =>
      obtain ⟨⟨start, stop⟩, inner, same⟩ := Option.map_eq_some_iff.mp isSplit
      cases same
      obtain ⟨none, c, isSeparator, rfl⟩ := ih inner
      exact ⟨List.forall_mem_cons.mpr ⟨by simpa using notFirst, none⟩, c, isSeparator, rfl⟩

theorem dropLast?_append (text : List Char) (last : Char) : dropLast? last (text ++ [last]) = some text := by
  induction text with
  | nil => simp [dropLast?]
  | cons first rest ih => cases rest <;> simp_all [dropLast?]

/-! Lines -/

theorem not_mem_of_lines (text : List Char) : ∀ line ∈ lines text, '\n' ∉ line := by
  fun_induction lines text with
  | case1 => simp
  | case2 rest ih => exact List.forall_mem_cons.mpr ⟨List.not_mem_nil, ih⟩
  | case3 rest ih => exact List.forall_mem_cons.mpr ⟨List.not_mem_nil, ih⟩
  | case4 c rest _ noFeed _ _ => simpa using fun same => noFeed same.symm
  | case5 c rest _ noFeed line more isLines ih =>
    rw [isLines] at ih
    obtain ⟨first, later⟩ := List.forall_mem_cons.mp ih
    refine List.forall_mem_cons.mpr ⟨fun member => ?_, later⟩
    exact (List.mem_cons.mp member).elim (fun same => noFeed same.symm) first

theorem lines_cons {rest : List Char} (noFeed : c ≠ '\n') (noReturn : c = '\r' → rest.head? ≠ some '\n') :
    lines (c :: rest) = (c :: (lines rest).headD []) :: (lines rest).tail := by
  rw [lines]
  · cases lines rest <;> rfl
  · rintro more rfl rfl
    exact noReturn rfl rfl
  · exact noFeed

theorem lines_append {first : List Char} (nonempty : first ≠ []) (noFeed : '\n' ∉ first)
    (trimmed : Trimmed first) (rest : List Char) :
    lines (first ++ rest) = (first ++ (lines rest).headD []) :: (lines rest).tail := by
  have last : first.getLast? ≠ some '\r' := fun isLast => absurd (trimmed.last _ isLast) (by decide)
  clear trimmed
  induction first with
  | nil => exact absurd rfl nonempty
  | cons c more ih =>
    rw [List.mem_cons, not_or] at noFeed
    obtain ⟨notFirst, noFeed⟩ := noFeed
    cases more with
    | nil =>
      rw [List.singleton_append, lines_cons (Ne.symm notFirst) fun isReturn => absurd (by simp [isReturn]) last]
      rfl
    | cons d more =>
      have inner := ih (List.cons_ne_nil d more) noFeed (by simpa using last)
      rw [List.cons_append, lines_cons (Ne.symm notFirst) fun _ => ?_, inner]
      · rfl
      · simpa using fun same => noFeed (by simp [same])

end Text

namespace Assembly

/-! Comments -/

def scanChar (state : Bool × Bool) (c : Char) : Option (Bool × Bool) :=
  if state.2 then some (state.1, false)
  else if c = '\\' && state.1 then some (state.1, true)
  else if c = '"' then some (!state.1, false)
  else if c = '#' && !state.1 then none
  else some (state.1, false)

def scan (state : Bool × Bool) (text : List Char) : Option (Bool × Bool) := text.foldlM scanChar state

theorem stripCommentFrom_cons (state : Bool × Bool) (c : Char) (rest : List Char) :
    stripCommentFrom state.1 state.2 (c :: rest) =
      match scanChar state c with
      | some next => c :: stripCommentFrom next.1 next.2 rest
      | none => [] := by
  rw [stripCommentFrom, scanChar]
  split_ifs <;> rfl

theorem scan_cons (state : Bool × Bool) (c : Char) (rest : List Char) :
    scan state (c :: rest) = (scanChar state c).bind (scan · rest) :=
  List.foldlM_cons

theorem scan_append (state : Bool × Bool) (before after : List Char) :
    scan state (before ++ after) = (scan state before).bind (scan · after) :=
  List.foldlM_append

/-- A text without a comment is kept, and what follows is scanned from there. -/
theorem stripCommentFrom_append (scans : scan state before = some next) (after : List Char) :
    stripCommentFrom state.1 state.2 (before ++ after) = before ++ stripCommentFrom next.1 next.2 after := by
  induction before generalizing state with
  | nil =>
    cases scans
    rfl
  | cons c rest ih =>
    obtain ⟨middle, isMiddle, scans⟩ := Option.bind_eq_some_iff.mp scans
    rw [List.cons_append, stripCommentFrom_cons, isMiddle]
    exact congrArg (c :: ·) (ih scans)

theorem exists_scan_stripCommentFrom (state : Bool × Bool) (text : List Char) :
    ∃ next, scan state (stripCommentFrom state.1 state.2 text) = some next := by
  induction text generalizing state with
  | nil => exact ⟨state, rfl⟩
  | cons c rest ih =>
    rw [stripCommentFrom_cons]
    cases isMiddle : scanChar state c with
    | none => exact ⟨state, rfl⟩
    | some middle =>
      obtain ⟨next, scans⟩ := ih middle
      exact ⟨next, Option.bind_eq_some_iff.mpr ⟨middle, isMiddle, scans⟩⟩

/-- Outside of strings, text that starts no string and no comment changes nothing. -/
theorem scan_outside (plain : ∀ c ∈ text, c ≠ '"' ∧ c ≠ '#') :
    scan (false, false) text = some (false, false) := by
  induction text with
  | nil => rfl
  | cons c rest ih =>
    obtain ⟨notQuote, notHash⟩ := plain c (.head _)
    have step : scanChar (false, false) c = some (false, false) := by simp [scanChar, notQuote, notHash]
    exact Option.bind_eq_some_iff.mpr ⟨_, step, ih fun c member => plain c (.tail _ member)⟩

theorem exists_scan_of_not_mem (noHash : '#' ∉ text) (state : Bool × Bool) :
    ∃ next, scan state text = some next := by
  induction text generalizing state with
  | nil => exact ⟨state, rfl⟩
  | cons c rest ih =>
    rw [List.mem_cons, not_or] at noHash
    obtain ⟨middle, isMiddle⟩ : ∃ middle, scanChar state c = some middle := by
      unfold scanChar
      split_ifs <;> simp_all
    obtain ⟨next, scans⟩ := ih noHash.2 middle
    exact ⟨next, Option.bind_eq_some_iff.mpr ⟨middle, isMiddle, scans⟩⟩

theorem stripCommentFrom_prefix (state : Bool × Bool) (text : List Char) :
    stripCommentFrom state.1 state.2 text <+: text := by
  induction text generalizing state with
  | nil => exact List.prefix_refl []
  | cons c rest ih =>
    rw [stripCommentFrom_cons]
    cases scanChar state c with
    | none => exact List.nil_prefix
    | some next => exact List.prefix_cons_inj c |>.mpr (ih next)

theorem exists_scan_of_append (scans : scan state (before ++ after) = some next) :
    ∃ middle, scan state before = some middle ∧ scan middle after = some next := by
  rw [scan_append] at scans
  exact Option.bind_eq_some_iff.mp scans

/-- Outside of strings, text that starts no string leaves the scan there. -/
theorem scan_behind (noQuote : '"' ∉ before)
    (scans : scan (false, false) (before ++ after) = some next) : scan (false, false) after = some next := by
  induction before with
  | nil => exact scans
  | cons c rest ih =>
    rw [List.mem_cons, not_or] at noQuote
    obtain ⟨middle, isMiddle, scans⟩ := Option.bind_eq_some_iff.mp scans
    have outside : middle = (false, false) := by
      unfold scanChar at isMiddle
      split_ifs at isMiddle <;> simp_all
    exact ih noQuote.2 (outside ▸ scans)

structure Clean (text : List Char) : Prop where
  trimmed : Text.Trimmed text
  oneLine : '\n' ∉ text
  scans : ∃ state, scan (false, false) text = some state

theorem Clean.nil : Clean [] := ⟨⟨by simp, by simp⟩, by simp, _, rfl⟩

theorem clean_trim (before after : List Char) {part : List Char}
    (scans : scan (false, false) (before ++ (part ++ after)) = some next) (noQuote : '"' ∉ before)
    (oneLine : '\n' ∉ part) : Clean (Text.trim part) := by
  obtain ⟨start, stop, isPart, blank⟩ := Text.exists_around_trim part
  refine ⟨Text.trimmed_trim part, fun member => oneLine (Text.mem_of_mem_trim member), ?_⟩
  · have noQuotes : '"' ∉ start := fun member => absurd (blank _ (List.mem_append_left _ member)) (by decide)
    obtain ⟨middle, scans, _⟩ := exists_scan_of_append (scan_behind noQuote scans)
    rw [isPart, List.append_assoc] at scans
    obtain ⟨state, scans, _⟩ := exists_scan_of_append (scan_behind noQuotes scans)
    exact ⟨state, scans⟩

theorem clean_line (oneLine : '\n' ∉ line) : Clean (Text.trim (stripComment line)) := by
  obtain ⟨next, scans⟩ := exists_scan_stripCommentFrom (false, false) line
  have whole : scan (false, false) ([] ++ (stripComment line ++ [])) = some next := by
    simpa [stripComment] using scans
  refine clean_trim [] [] whole List.not_mem_nil fun member => oneLine ?_
  exact ( stripCommentFrom_prefix (false, false) line).subset member

/-! Mnemonics and types -/

theorem bounds_of_isLower (lower : c.isLower = true) : 0x61 ≤ c.toNat ∧ c.toNat ≤ 0x7A := by
  obtain ⟨low, high⟩ := Bool.and_eq_true_iff.mp lower
  exact ⟨UInt32.le_iff_toNat_le.mp (of_decide_eq_true low), UInt32.le_iff_toNat_le.mp (of_decide_eq_true high)⟩

def headOf (word : List Char) (types : List DataType) : List Char :=
  word ++ types.flatMap fun type => ['.', type.suffix]

def spell (word : List Char) (types : List DataType) (operand : List Char) : List Char :=
  headOf word types ++ if operand = [] then [] else ' ' :: operand

theorem isLower_suffix (type : DataType) : type.suffix.isLower = true := by cases type <;> rfl

theorem readSuffix_suffix (type : DataType) : readSuffix [type.suffix] = .ok type := by cases type <;> rfl

theorem mapM_readSuffix (types : List DataType) :
    (types.map fun type => [type.suffix]).mapM readSuffix = .ok types := by
  induction types with
  | nil => rfl
  | cons type rest ih =>
    rw [List.map_cons, List.mapM_cons, readSuffix_suffix, ih]
    rfl

section

variable {word : List Char} (lower : ∀ c ∈ word, c.isLower = true) (types : List DataType)

include lower

theorem bounds_of_mem_headOf (member : c ∈ headOf word types) : 0x2E ≤ c.toNat ∧ c.toNat ≤ 0x7A := by
  rcases List.mem_append.mp member with inWord | inTypes
  · have := bounds_of_isLower (lower c inWord)
    omega
  · obtain ⟨type, _, among⟩ := List.mem_flatMap.mp inTypes
    rcases List.mem_cons.mp among with rfl | isSuffix
    · decide
    · have := bounds_of_isLower (isLower_suffix type)
      rw [List.mem_singleton.mp isSuffix]
      omega

theorem splitAll_headOf :
    Text.splitAll (· == '.') (headOf word types) = (word, types.map fun type => [type.suffix]) := by
  have notDot {c : Char} (isLower : c.isLower = true) : (c == '.') = false := by
    rw [beq_eq_false_iff_ne]
    rintro rfl
    exact absurd isLower (by decide)
  induction word with
  | nil =>
    induction types with
    | nil => rfl
    | cons type rest ih =>
      rw [headOf, List.nil_append, List.flatMap_cons, List.cons_append, List.singleton_append,
        Text.splitAll, Text.splitAll, notDot (isLower_suffix type)]
      rw [headOf, List.nil_append] at ih
      simp [ih]
  | cons c rest ih =>
    rw [headOf, List.cons_append, Text.splitAll, ← headOf, ih fun c member => lower c (.tail _ member),
      notDot (lower c (.head _))]
    rfl

theorem not_isBlank_of_mem_headOf (member : c ∈ headOf word types) : Text.isBlank c = false := by
  have := bounds_of_mem_headOf lower types member
  exact Text.isBlank_eq_false (by omega) (by omega)

theorem cutHead_spell (trimmed : Text.Trimmed operand) :
    cutHead (spell word types operand) = (headOf word types, operand) := by
  have noBlank (c : Char) (member : c ∈ headOf word types) : Text.isBlank c = false :=
    not_isBlank_of_mem_headOf lower types member
  unfold cutHead spell
  split_ifs with isNil
  · rw [List.append_nil, Text.splitOnce?_eq_none noBlank, isNil]
  · rw [Text.splitOnce?_append ' ' operand noBlank (by decide)]
    simp only [trimmed.trim_eq]

theorem readInstruction_spell (trimmed : Text.Trimmed operand) :
    readInstruction (spell word types operand) = readDraft (String.ofList word) types operand := by
  rw [readInstruction_eq, cutHead_spell lower types trimmed, splitAll_headOf lower types]
  simp only [mapM_readSuffix]
  rfl

theorem scan_spell (scans : scan (false, false) operand = some next) :
    scan (false, false) (spell word types operand) = some next := by
  have plain (c : Char) (member : c ∈ headOf word types) : c ≠ '"' ∧ c ≠ '#' := by
    have bounds := bounds_of_mem_headOf lower types member
    exact ⟨by rintro rfl; exact absurd bounds (by decide), by rintro rfl; exact absurd bounds (by decide)⟩
  rw [spell, scan_append, scan_outside plain, Option.bind_some]
  split_ifs with isNil
  · exact isNil ▸ scans
  · rw [scan_cons]
    exact scans

theorem clean_spell (nonempty : word ≠ []) (clean : Clean operand) : Clean (spell word types operand) := by
  obtain ⟨first, rest, rfl⟩ := List.exists_cons_of_ne_nil nonempty
  refine ⟨⟨fun c isFirst => ?_, fun c isLast => ?_⟩, fun member => ?_, ?_⟩
  · have same : first = c := by simpa [spell, headOf] using isFirst
    exact same ▸ not_isBlank_of_mem_headOf lower types (by simp [headOf])
  · unfold spell at isLast
    split_ifs at isLast with isNil
    · rw [List.append_nil] at isLast
      exact not_isBlank_of_mem_headOf lower types (List.mem_of_getLast? isLast)
    · rw [List.append_cons, List.getLast?_append_of_ne_nil _ isNil] at isLast
      exact clean.trimmed.last c isLast
  · unfold spell at member
    rcases List.mem_append.mp member with inHead | inOperand
    · exact absurd (not_isBlank_of_mem_headOf lower types inHead) (by decide)
    · split_ifs at inOperand with isNil
      · exact List.not_mem_nil inOperand
      · exact clean.oneLine (by simpa using inOperand)
  · obtain ⟨state, scans⟩ := clean.scans
    exact ⟨state, scan_spell lower types scans⟩

theorem read_spell (nonempty : word ≠ []) (trimmed : Text.Trimmed operand)
    (isText : Text.trim (stripComment line) = spell word types operand) :
    Statement.read line =
      (readDraft (String.ofList word) types operand).map fun draft => some (.instruction draft) := by
  obtain ⟨first, rest, rfl⟩ := List.exists_cons_of_ne_nil nonempty
  have isLower := lower first (.head _)
  rw [← readInstruction_spell lower types trimmed, Statement.read, isText]
  simp only [spell, headOf, List.cons_append]
  split
  · contradiction
  · next isLabel =>
    cases isLabel
    exact absurd isLower (by decide)
  · next isChild =>
    cases isChild
    exact absurd isLower (by decide)
  · rfl

end

/-! Operations and signals -/

theorem isLower_mnemonic (opcode : Opcode) : ∀ c ∈ opcode.mnemonic.toList, c.isLower = true :=
  List.all_eq_true.mp (by cases opcode <;> decide)

theorem isLower_signal (signal : Signal) : ∀ c ∈ signal.mnemonic.toList, c.isLower = true :=
  List.all_eq_true.mp (by cases signal <;> decide)

theorem mnemonic_ne_nil (opcode : Opcode) : opcode.mnemonic.toList ≠ [] := by cases opcode <;> decide

theorem signal_ne_nil (signal : Signal) : signal.mnemonic.toList ≠ [] := by cases signal <;> decide

theorem readDraft_mnemonic (opcode : Opcode) (types : List DataType) (operand : List Char) :
    readDraft opcode.mnemonic types operand =
      (readOperand opcode (types[0]?.getD .int32) operand).map fun term =>
        ⟨opcode, types[0]?.getD .int32, types[1]?.getD (types[0]?.getD .int32), term⟩ := by
  have noSignal : Signal.ofMnemonic? opcode.mnemonic = none := by cases opcode <;> rfl
  have isOpcode : Opcode.ofMnemonic? opcode.mnemonic = some opcode := by cases opcode <;> rfl
  simp only [readDraft, noSignal, isOpcode]
  rfl

theorem readDraft_signal (signal : Signal) (types : List DataType) (operand : List Char) :
    readDraft signal.mnemonic types operand =
      (readSignal signal operand).map fun term =>
        ⟨.signal, types[0]?.getD .int32, types[1]?.getD (types[0]?.getD .int32), term⟩ := by
  have isSignal : Signal.ofMnemonic? signal.mnemonic = some signal := by cases signal <;> rfl
  simp only [readDraft, isSignal]
  rfl

/-! One instruction -/

structure Single (draft : Draft) (code : Code) (inst : Instruction) : Prop where
  instructions : code.instructions = [inst]
  opcode : inst.opcode = draft.opcode
  type1 : inst.type1 = draft.type1
  type2 : inst.type2 = draft.type2
  operand : inst.operand.term? code.symbols = some draft.term

theorem addLines_of_read_none {lines : List (List Char)}
    (empty : ∀ line ∈ lines, Statement.read line = .ok none) (layout : Layout) (number : Nat) :
    layout.addLines number lines = .ok layout := by
  induction lines generalizing number with
  | nil => rfl
  | cons line rest ih =>
    rw [Layout.addLines, Layout.addLine, empty line (.head _)]
    exact ih (fun line member => empty line (.tail _ member)) (number + 1)

theorem exists_single_of_lines {word : List Char} {types : List DataType}
    {more : List (List Char)} {draft : Draft} (name : String) (lower : ∀ c ∈ word, c.isLower = true)
    (nonempty : word ≠ []) (trimmed : Text.Trimmed operand) (isLines : Text.lines listing.toList = line :: more)
    (isText : Text.trim (stripComment line) = spell word types operand)
    (empty : ∀ line ∈ more, Statement.read line = .ok none)
    (isDraft : readDraft (String.ofList word) types operand = .ok draft)
    (known : ∀ name, draft.term ≠ .label name) :
    ∃ code inst, assemble name listing = .ok code ∧ Single draft code inst := by
  have read : Statement.read line = .ok (some (.instruction draft)) := by
    rw [read_spell lower types nonempty trimmed isText, isDraft]
    rfl
  have stands := Term.standsFor_enter {} (fits_of_readInstruction (readInstruction_of_read read))
  unfold assemble
  rw [isLines, Layout.addLines, Layout.addLine, read]
  simp only [Layout.add, addLines_of_read_none empty]
  cases isOperand : (draft.term.enter {}).1 with
  | label label =>
    rw [isOperand] at stands
    exact absurd stands (known label)
  | ready operand =>
    rw [isOperand] at stands
    exact ⟨_, _, rfl, rfl, rfl, rfl, rfl, stands⟩

theorem exists_single_of_spell {word : List Char} {types : List DataType}
    {draft : Draft} (name : String) (lower : ∀ c ∈ word, c.isLower = true) (nonempty : word ≠ [])
    (clean : Clean operand) (isListing : listing.toList = spell word types operand)
    (isDraft : readDraft (String.ofList word) types operand = .ok draft)
    (known : ∀ name, draft.term ≠ .label name) :
    ∃ code inst, assemble name listing = .ok code ∧ Single draft code inst := by
  obtain ⟨trimmed, oneLine, state, scans⟩ := clean_spell lower types nonempty clean
  have text : spell word types operand ≠ [] := by simp [spell, headOf, nonempty]
  have isLines := Text.lines_append text oneLine trimmed []
  rw [List.append_nil, ← isListing] at isLines
  refine exists_single_of_lines name lower nonempty clean.trimmed isLines ?_ (by simp [Text.lines]) isDraft known
  have kept : stripComment (spell word types operand) = spell word types operand := by
    simpa [stripCommentFrom, stripComment] using stripCommentFrom_append scans []
  rw [isListing, Text.lines, List.headD_nil, List.append_nil, kept, trimmed.trim_eq]

end Assembly

end Structuring
