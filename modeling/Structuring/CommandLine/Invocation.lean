import Structuring.Pipeline

/-! What the arguments of the command ask for.

An option stands anywhere, at most once. Its value is the next word, or follows `=`. After the
word `--` every word is an input.
-/

namespace Structuring.CommandLine

open Bytecode

inductive Argument where
  | input (path : String)
  | name (text : String)
  | version (number : UInt8)
  | dumpAfter (pass : String)
  | filter (text : String)
  | json
  | noVerify
  | verbose (times : Nat)
  deriving DecidableEq, Repr

def flag? (key : String) : Option Argument :=
  match key with
  | "json" => some .json
  | "no-verify" => some .noVerify
  | "verbose" => some (.verbose 1)
  | _ => none

def readVersion? (text : String) : Option UInt8 :=
  (Number.readInt? text.toList).bind fun number =>
    if 0 ≤ number ∧ number < 256 then some (UInt8.ofNat number.toNat) else none

def valueOption? (key : String) : Option (String → Option Argument) :=
  match key with
  | "name" => some fun text => some (.name text)
  | "bytecode-version" => some fun text => (readVersion? text).map .version
  | "dump-after" => some fun text => some (.dumpAfter text)
  | "filter" => some fun text => some (.filter text)
  | _ => none

/-- Whether a word has the form of an option, which no value given as a word has. -/
def isMarked (word : String) : Bool :=
  match word.toList with
  | '-' :: _ :: _ => true
  | _ => false

def readWords? : List String → Option (List Argument)
  | [] => some []
  | word :: rest =>
    match word.toList with
    | ['-', '-'] => some (rest.map .input)
    | '-' :: '-' :: text =>
      match Text.splitOnce? (· == '=') text with
      | some (key, value) => do
        let read ← valueOption? (String.ofList key)
        let argument ← read (String.ofList value)
        return argument :: (← readWords? rest)
      | none =>
        match flag? (String.ofList text) with
        | some flag => do return flag :: (← readWords? rest)
        | none =>
          match valueOption? (String.ofList text), rest with
          | some read, value :: others =>
            if isMarked value then none
            else do
              let argument ← read value
              return argument :: (← readWords? others)
          | _, _ => none
    | '-' :: 'v' :: letters =>
      if letters.all (· == 'v') then do
        return .verbose (letters.length + 1) :: (← readWords? rest)
      else none
    | '-' :: _ :: _ => none
    | _ => do return .input word :: (← readWords? rest)

namespace Argument

def input? : Argument → Option String
  | input path => some path
  | _ => none

def name? : Argument → Option String
  | name text => some text
  | _ => none

def version? : Argument → Option UInt8
  | version number => some number
  | _ => none

def dumpAfter? : Argument → Option String
  | dumpAfter pass => some pass
  | _ => none

def filter? : Argument → Option String
  | filter text => some text
  | _ => none

def isFlag? (flag argument : Argument) : Option Unit := if argument = flag then some () else none

def times : Argument → Nat
  | verbose times => times
  | _ => 0

end Argument

/-- The only argument that `pick` takes, or none; there must not be two. -/
def only? {α : Type} (pick : Argument → Option α) (arguments : List Argument) : Option (Option α) :=
  match arguments.filterMap pick with
  | [] => some none
  | [value] => some (some value)
  | _ => none

structure Invocation where
  input : String
  /-- The name of the code entry, if it is not that of the input. -/
  name : Option String := none
  version : UInt8 := latestVersion
  options : RunOptions := {}
  json : Bool := false
  /-- How much of the log is shown. -/
  verbosity : Nat := 0
  deriving DecidableEq, Repr

/-- The run that the words ask for. There is exactly one input, and it is not empty. -/
def Invocation.ofWords? (words : List String) : Option Invocation := do
  let arguments ← readWords? words
  let input ← (← only? Argument.input? arguments)
  if input.isEmpty then failure
  let name ← only? Argument.name? arguments
  let version ← only? Argument.version? arguments
  let dumpAfter ← only? Argument.dumpAfter? arguments
  let filter ← only? Argument.filter? arguments
  let json ← only? (Argument.isFlag? .json) arguments
  let noVerify ← only? (Argument.isFlag? .noVerify) arguments
  return {
    input, name
    version := version.getD latestVersion
    options := { filter, dumpAfter, verify := noVerify.isNone }
    json := json.isSome
    verbosity := (arguments.map Argument.times).foldl (· + ·) 0 }

end Structuring.CommandLine
