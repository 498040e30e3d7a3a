import Structuring.Assembly.Layout
import Structuring.CommandLine.Invocation
import Structuring.Outline.Json

/-! What a run of the command prints. -/

namespace Structuring.CommandLine

open Bytecode Recovery Outline

structure Outcome where
  exitCode : UInt32
  output : String := ""
  errors : String := ""
  log : List (Level × String) := []
  deriving DecidableEq, Repr

inductive ReadFault where
  | noSuchFile
  | accessDenied
  | notDirectory
  | isDirectory
  | nameTooLong
  | notUnicode
  /-- Another error of the operating system, in its words and with its number. -/
  | other (details : String) (number : Nat)
  deriving DecidableEq, Repr

namespace ReadFault

def ofNumber (details : String) (number : Nat) : ReadFault :=
  match number with
  | 2 => noSuchFile
  | 13 => accessDenied
  | 20 => notDirectory
  | 21 => isDirectory
  | 36 => nameTooLong
  | _ => other details number

def text : ReadFault → String
  | noSuchFile => "No such file or directory (os error 2)"
  | accessDenied => "Permission denied (os error 13)"
  | notDirectory => "Not a directory (os error 20)"
  | isDirectory => "Is a directory (os error 21)"
  | nameTooLong => "File name too long (os error 36)"
  | notUnicode => "stream did not contain valid UTF-8"
  | other details number => details ++ " (os error " ++ Number.decimal number ++ ")"

end ReadFault

/-- The name of a file without its extension. A point at the start begins no extension. -/
def stemOf (file : List Char) : List Char :=
  match Text.splitOnce? (· == '.') file.reverse with
  | some (_, before) => if before.isEmpty then file else before.reverse
  | none => file

/-- The stem of the file that a path leads to; a path to a directory has none. -/
def pathStem? (path : String) : Option String :=
  let pieces := Text.splitAll (· == '/') path.toList
  let named := (pieces.1 :: pieces.2).filter fun piece => !piece.isEmpty && piece != ['.']
  match named.getLast? with
  | none | some ['.', '.'] => none
  | some file => some (String.ofList (stemOf file))

def Invocation.entryName (invocation : Invocation) : String :=
  invocation.name.getD ((pathStem? invocation.input).getD "entry")

def indented (text : String) : String :=
  String.ofList (' ' :: ' ' :: ' ' :: ' ' :: text.toList.flatMap fun c =>
    if c = '\n' then ['\n', ' ', ' ', ' ', ' '] else [c])

def failureText (what : String) (cause : Option String) : String :=
  "Error: " ++ what ++ ((cause.map fun text => "\n\nCaused by:\n" ++ indented text).getD "") ++ "\n"

def Outcome.failed (what : String) (cause : Option String) : Outcome :=
  { exitCode := 1, errors := failureText what cause }

def isShown (verbosity : Nat) : Level → Bool
  | .warn => true
  | .debug => 1 ≤ verbosity
  | .trace => 2 ≤ verbosity

def shownLog (invocation : Invocation) (log : List (Level × String)) : List (Level × String) :=
  log.filter fun line => isShown invocation.verbosity line.1

def sessionLog (session : Session) : List (Level × String) :=
  session.log.toList.map fun event => (event.level, event.text)

def finished (invocation : Invocation) (source : Source) (session : Session)
    (result : RunOutcome) : Outcome :=
  let name := source.code.name
  if result.stoppedEarly then
    let dump := dumpText source (invocation.options.dumpAfter.getD "") session.context
    { exitCode := 0, errors := if invocation.options.selects name then dump else "" }
  else
    match export? source.code.symbols session.context with
    | none => .failed ("`" ++ name ++ "` produced no fragment tree") none
    | some tree =>
      let json := tree.toJson.pretty 0 ++ "\n"
      { exitCode := 0, output := if invocation.json then json else tree.text }

/-- Structure a code entry. A failure of which nothing can be told has an exit code of its own. -/
def structureSource (invocation : Invocation) (source : Source) : Outcome :=
  match (run source invocation.options Pass.standard).run {} with
  | .ok result session =>
    let changed := (Level.debug, "changed: " ++ String.intercalate ", " result.changed)
    { finished invocation source session result with
      log := shownLog invocation (sessionLog session ++ [changed]) }
  | .error failure session =>
    let log := shownLog invocation (sessionLog session)
    match failure.report? with
    | some report =>
      { Outcome.failed ("failed to structure `" ++ source.code.name ++ "`") (some report.text) with
        log }
    | none => { exitCode := 101, log }

def perform (invocation : Invocation) (content : Except ReadFault String) : Outcome :=
  match invocation.options.unknownPass?, content with
  | some pass, _ => .failed (unknownPassText pass) none
  | none, .error fault => .failed ("failed to read " ++ invocation.input) (some fault.text)
  | none, .ok listing =>
    match Assembly.assemble invocation.entryName listing with
    | .error error => .failed ("failed to assemble " ++ invocation.input) (some error.text)
    | .ok code => structureSource invocation { code, features := .ofVersion invocation.version }

/-- Run the command on its words. Words that ask for no run are an error of their own. -/
def performWords (words : List String) (read : String → Except ReadFault String) : Outcome :=
  match Invocation.ofWords? words with
  | some invocation => perform invocation (read invocation.input)
  | none => { exitCode := 2, errors := "error: the arguments cannot be understood\n" }

end Structuring.CommandLine
