import Structuring.Proofs.Listing.Reading

/-! String literals.

Two scans go over a literal, one for the end of the line before a comment and one for its escapes. What
is written between the quotes suits both if neither loses its place. Every text can be written so.
-/

namespace Structuring.Assembly

open Bytecode

variable {text blanks : List Char} {comment : Option (List Char)}

/-! Between quotes -/

structure Writes (written value : List Char) : Prop where
  reads : ∀ rest, unescape (written ++ rest) = (unescape rest).map (value ++ ·)
  scans : scan (true, false) written = some (true, false)
  oneLine : '\n' ∉ written

namespace Writes

variable {written value : List Char}

theorem nil : Writes [] [] := by
  refine ⟨fun rest => ?_, rfl, List.not_mem_nil⟩
  rw [List.nil_append]
  cases unescape rest <;> rfl

theorem append {more further : List Char} (first : Writes written value) (second : Writes more further) :
    Writes (written ++ more) (value ++ further) := by
  refine ⟨fun rest => ?_, ?_, fun member => ?_⟩
  · rw [List.append_assoc, first.reads, second.reads]
    cases unescape rest <;> simp [Except.map]
  · rw [scan_append, first.scans, Option.bind_some, second.scans]
  · exact (List.mem_append.mp member).elim first.oneLine second.oneLine

theorem flatMap {write reread : Char → List Char} (each : ∀ c ∈ text, Writes (write c) (reread c)) :
    Writes (text.flatMap write) (text.flatMap reread) := by
  induction text with
  | nil => exact nil
  | cons c rest ih =>
    rw [List.flatMap_cons, List.flatMap_cons]
    exact (each c (.head _)).append (ih fun c member => each c (.tail _ member))

theorem plain {c : Char} (notEscape : c ≠ '\\') (notQuote : c ≠ '"') (notFeed : c ≠ '\n') :
    Writes [c] [c] := by
  refine ⟨fun rest => ?_, ?_, by simpa using Ne.symm notFeed⟩
  · rw [List.singleton_append, unescape]
    · rfl
    · exact fun same => absurd same notEscape
    · exact fun _ _ same => absurd same notEscape
  · simp [scan, scanChar, notEscape, notQuote]

theorem plains (each : ∀ c ∈ text, c ≠ '\\' ∧ c ≠ '"' ∧ c ≠ '\n') :
    Writes text text := by
  have same := flatMap fun c member => plain (each c member).1 (each c member).2.1 (each c member).2.2
  rwa [List.flatMap_singleton'] at same

theorem escaped {c : Char} (notFeed : c ≠ '\n') :
    Writes ['\\', c] [if c = 'n' then '\n' else if c = 't' then '\t' else c] := by
  refine ⟨fun rest => rfl, ?_, by simpa using Ne.symm notFeed⟩
  simp [scan, scanChar]

end Writes

def literal (written : List Char) : List Char := '"' :: (written ++ ['"'])

namespace Writes

variable {written value : List Char} (writes : Writes written value)

include writes

theorem readString_literal : readString (literal written) = .ok (.string (String.ofList value)) := by
  have inner : (Text.dropFirst? '"' (literal written)).bind (Text.dropLast? '"') = some written :=
    Text.dropLast?_append written '"'
  have isValue : unescape written = .ok value := by simpa [unescape, Except.map] using writes.reads []
  rw [readString, inner]
  simp only [require, bind, Except.bind, isValue]
  rfl

theorem scan_literal : scan (false, false) (literal written) = some (false, false) := by
  rw [literal, scan_cons, show scanChar (false, false) '"' = some (true, false) from rfl,
    Option.bind_some, scan_append, writes.scans]
  rfl

theorem clean_literal : Clean (literal written) := by
  refine ⟨⟨fun c isFirst => ?_, fun c isLast => ?_⟩, fun member => ?_, _, writes.scan_literal⟩
  · cases isFirst
    decide
  · rw [literal, ← List.cons_append, List.getLast?_concat] at isLast
    cases isLast
    decide
  · rcases List.mem_cons.mp member with same | member
    · exact absurd same (by decide)
    · rcases List.mem_append.mp member with inside | atEnd
      · exact writes.oneLine inside
      · exact absurd (List.mem_singleton.mp atEnd) (by decide)

end Writes

def pushes : List Opcode := [.push, .pushloc, .pushglb, .pushbltn, .pushi]

theorem Writes.readDraft_literal {written value : List Char} (writes : Writes written value)
    (opcode : Opcode) (isPush : opcode ∈ pushes) :
    readDraft opcode.mnemonic [.string] (literal written) =
      .ok ⟨opcode, .string, .string, .string (String.ofList value)⟩ := by
  have isOperand : readOperand opcode .string (literal written) = readString (literal written) := by
    simp only [pushes, List.mem_cons, List.not_mem_nil, or_false] at isPush
    obtain rfl | rfl | rfl | rfl | rfl := isPush <;> rfl
  rw [readDraft_mnemonic, List.getElem?_cons_zero, Option.getD_some, isOperand, writes.readString_literal]
  rfl

theorem exists_string_of_term? {symbols : Symbols} {operand : Operand} {value : String}
    (isTerm : operand.term? symbols = some (.string value)) :
    ∃ id, operand = .string id ∧ symbols.stringValues[id]? = some value := by
  cases operand <;> simp_all [Operand.term?]

/-! Every text has a literal -/

def escapeChar (c : Char) : List Char :=
  if c = '\\' then ['\\', '\\']
  else if c = '"' then ['\\', '"']
  else if c = '\n' then ['\\', 'n']
  else if c = '\t' then ['\\', 't']
  else [c]

theorem writes_escapeChar (c : Char) : Writes (escapeChar c) [c] := by
  unfold escapeChar
  split_ifs with isEscape isQuote isFeed isTab
  · rw [isEscape]
    exact .escaped (c := '\\') (by decide)
  · rw [isQuote]
    exact .escaped (c := '"') (by decide)
  · rw [isFeed]
    exact .escaped (c := 'n') (by decide)
  · rw [isTab]
    exact .escaped (c := 't') (by decide)
  · exact .plain isEscape isQuote isFeed

/-- A text as it is written between quotes. -/
def escape (text : String) : String := String.ofList (text.toList.flatMap escapeChar)

theorem writes_escape (text : String) : Writes (escape text).toList text.toList := by
  rw [escape, String.toList_ofList]
  have same := Writes.flatMap fun c (_ : c ∈ text.toList) => writes_escapeChar c
  rwa [List.flatMap_singleton'] at same

/-! What follows an instruction -/

/-- The comment at the end of a line, if there is one. -/
def remark : Option (List Char) → List Char
  | none => []
  | some text => '#' :: text

theorem lines_eq_singleton (nonempty : text ≠ []) (noFeed : '\n' ∉ text) : Text.lines text = [text] := by
  induction text with
  | nil => exact absurd rfl nonempty
  | cons c rest ih =>
    rw [List.mem_cons, not_or] at noFeed
    rw [Text.lines_cons (Ne.symm noFeed.1) fun _ isHead => noFeed.2 (List.mem_of_mem_head? isHead)]
    cases rest with
    | nil => rfl
    | cons d more => rw [ih (List.cons_ne_nil d more) noFeed.2]; rfl

theorem blank_of_lines (blank : ∀ c ∈ blanks, Text.isBlank c = true) (oneLine : ∀ text ∈ comment, '\n' ∉ text) :
    ∀ line ∈ Text.lines (blanks ++ remark comment), ∀ c ∈ stripComment line, Text.isBlank c = true := by
  induction blanks with
  | nil =>
    cases comment with
    | none => simp [remark, Text.lines]
    | some text =>
      have noFeed : '\n' ∉ '#' :: text := by simpa using oneLine text rfl
      rw [List.nil_append, remark, lines_eq_singleton (List.cons_ne_nil _ _) noFeed]
      simp [stripComment, stripCommentFrom]
  | cons c rest ih =>
    have later := ih fun c member => blank c (.tail _ member)
    rw [List.cons_append]
    by_cases isFeed : c = '\n'
    · rw [isFeed, Text.lines]
      exact List.forall_mem_cons.mpr ⟨List.forall_mem_nil _, later⟩
    · by_cases isReturn : c = '\r' ∧ (rest ++ remark comment).head? = some '\n'
      · obtain ⟨rfl, isHead⟩ := isReturn
        obtain ⟨more, isMore⟩ := List.head?_eq_some_iff.mp isHead
        rw [isMore, Text.lines] at later
        rwa [isMore, Text.lines]
      · rw [Text.lines_cons isFeed fun isReturned isHead => isReturn ⟨isReturned, isHead⟩]
        have isBlank := blank c (.head _)
        have plain : ∀ d ∈ [c], d ≠ '"' ∧ d ≠ '#' := by
          refine List.forall_mem_singleton.mpr ⟨?_, ?_⟩ <;>
          · rintro rfl
            exact absurd isBlank (by decide)
        have kept (line : List Char) : stripComment (c :: line) = c :: stripComment line :=
          stripCommentFrom_append (scan_outside plain) line
        cases isLines : Text.lines (rest ++ remark comment) with
        | nil =>
          refine List.forall_mem_singleton.mpr ?_
          rw [List.headD_nil, kept]
          exact List.forall_mem_singleton.mpr isBlank
        | cons line more =>
          rw [isLines] at later
          obtain ⟨first, others⟩ := List.forall_mem_cons.mp later
          refine List.forall_mem_cons.mpr ⟨?_, others⟩
          rw [List.headD_cons, kept]
          exact List.forall_mem_cons.mpr ⟨isBlank, first⟩

theorem read_eq_none {line : List Char} (blank : ∀ c ∈ stripComment line, Text.isBlank c = true) :
    Statement.read line = .ok none := by
  have isNil : Text.trim (stripComment line) = [] := by
    simpa using Text.trim_around (stripComment line) [] (by simpa using blank) Clean.nil.trimmed
  rw [Statement.read, isNil]

/-- Blanks and a comment may follow an instruction whose strings are closed. -/
theorem exists_single_of_followed {listing : String} {word operand : List Char}
    {types : List DataType} {draft : Draft} (name : String)
    (lower : ∀ c ∈ word, c.isLower = true) (nonempty : word ≠ []) (clean : Clean operand)
    (scans : scan (false, false) operand = some (false, false))
    (blank : ∀ c ∈ blanks, Text.isBlank c = true) (oneLine : ∀ text ∈ comment, '\n' ∉ text)
    (isListing : listing.toList = spell word types operand ++ (blanks ++ remark comment))
    (isDraft : readDraft (String.ofList word) types operand = .ok draft)
    (known : ∀ name, draft.term ≠ .label name) :
    ∃ code inst, assemble name listing = .ok code ∧ Single draft code inst := by
  have text := clean_spell lower types nonempty clean
  have isLines := Text.lines_append (by simp [spell, headOf, nonempty]) text.oneLine text.trimmed
    (blanks ++ remark comment)
  rw [← isListing] at isLines
  have empty := blank_of_lines blank oneLine
  refine exists_single_of_lines name lower nonempty clean.trimmed isLines ?_
    (fun line member => read_eq_none (empty line (List.mem_of_mem_tail member))) isDraft known
  rw [stripComment, stripCommentFrom_append (scan_spell lower types scans)]
  refine Text.trim_around [] _ (fun c member => ?_) text.trimmed
  cases isRest : Text.lines (blanks ++ remark comment) with
  | nil => simp [isRest, stripCommentFrom] at member
  | cons line more =>
    rw [isRest] at member empty
    exact empty line (.head _) c member

/-- A string can be pushed, whatever it is made of and whatever comment stands behind it. -/
theorem assemble_pushed_string (name value : String) {blanks : List Char} {comment : Option (List Char)}
    (blank : ∀ c ∈ blanks, Text.isBlank c = true) (oneLine : ∀ text ∈ comment, '\n' ∉ text) :
    ∃ code inst id,
      assemble name ("push.s \"" ++ escape value ++ "\"" ++ String.ofList (blanks ++ remark comment)) =
        .ok code ∧
      code.instructions = [inst] ∧ inst.opcode = .push ∧ inst.operand = .string id ∧
      code.symbols.stringValues[id]? = some value := by
  have writes := writes_escape value
  have isDraft := writes.readDraft_literal .push (by decide)
  rw [← String.ofList_toList (s := Opcode.push.mnemonic)] at isDraft
  have isListing : ("push.s \"" ++ escape value ++ "\"" ++ String.ofList (blanks ++ remark comment)).toList =
      spell Opcode.push.mnemonic.toList [.string] (literal (escape value).toList) ++
        (blanks ++ remark comment) := by
    simp [spell, headOf, literal, DataType.suffix, Opcode.mnemonic]
  obtain ⟨code, inst, assembled, single⟩ := exists_single_of_followed name (isLower_mnemonic .push)
    (mnemonic_ne_nil .push) writes.clean_literal writes.scan_literal blank oneLine isListing isDraft (by simp)
  obtain ⟨id, isString, found⟩ := exists_string_of_term? single.operand
  rw [String.ofList_toList] at found
  exact ⟨code, inst, id, assembled, single.instructions, single.opcode, isString, found⟩

theorem assemble_pushed_string_marks :
    (∀ c ∈ [' ', '\t'], Text.isBlank c = true) ∧ '\n' ∉ ['"', '#', '\\'] ∧
      ∃ code inst id,
        assemble "entry" ("push.s \"" ++ escape "#\\\"\n\r\"#" ++ "\"" ++
          String.ofList ([' ', '\t'] ++ remark (some ['"', '#', '\\']))) = .ok code ∧
        code.instructions = [inst] ∧ inst.opcode = .push ∧ inst.operand = .string id ∧
        code.symbols.stringValues[id]? = some "#\\\"\n\r\"#" := by
  have blank : ∀ c ∈ [' ', '\t'], Text.isBlank c = true := List.all_eq_true.mp (by decide)
  have oneLine : '\n' ∉ ['"', '#', '\\'] := by decide
  exact ⟨blank, oneLine, assemble_pushed_string "entry" _ blank (by simp)⟩

end Structuring.Assembly
