import AgentGraph.Format
import AgentGraph.Naming
import AgentGraph.Release
/-!
# The arguments of the command line

A command word is followed by one positional argument and by options with values: `--name value`,
`--name=value`, `-n value`, `-nvalue` or `-n=value`. Two dashes alone make everything after them
positional. Anything else is a usage error, which has no further cause here.
-/
namespace AgentGraph.CommandLine

/-- What the command line asks for. -/
inductive Command where
  /-- Write a document again in a format, a spelling and a release. -/
  | convert (input : String) (format : Format) (naming : Option NamingMode)
      (release : Option Release) (components output : Option String)
  /-- Load a document and say what its root is. -/
  | check (input : String) (components : Option String)
  /-- Move components of a document to a sidecar. -/
  | split (input : String) (disaggregated : List String) (outDir : String)
      (format : Option Format)

/-- What the arguments ask for. -/
inductive Request where
  | run (command : Command)
  | version
  | help

/-- An option that takes a value. -/
structure OptionSpec where
  long : String
  short : Option Char
  repeatable : Bool

/-- The arguments after a command word: positional ones, and options with their values. -/
structure Arguments where
  positional : List String
  options : List (String × String)

/-- A request for help, or arguments that were read. -/
inductive Scanned where
  | arguments (a : Arguments)
  | help

namespace OptionSpec

def ofLong? (specs : List OptionSpec) (name : String) : Option OptionSpec :=
  specs.find? (·.long == name)

def ofShort? (specs : List OptionSpec) (letter : Char) : Option OptionSpec :=
  specs.find? (·.short == some letter)

end OptionSpec

namespace Arguments

def empty : Arguments := ⟨[], []⟩

/-- Adds a positional argument; there is place for one. -/
def addPositional (a : Arguments) (text : String) : Option Arguments :=
  if a.positional.isEmpty then some { a with positional := [text] } else none

/-- Adds a value of an option; only a repeatable one may come twice. -/
def addOption (a : Arguments) (spec : OptionSpec) (value : String) : Option Arguments :=
  if !spec.repeatable && a.options.any (·.1 == spec.long) then none
  else some { a with options := a.options ++ [(spec.long, value)] }

def option? (a : Arguments) (long : String) : Option String := a.options.lookup long

def values (a : Arguments) (long : String) : List String :=
  (a.options.filter (·.1 == long)).map (·.2)

end Arguments

/-- Whether an argument is an option rather than a value. -/
def isOption (text : String) : Bool := text.startsWith "-" && text != "-"

/-- Splits a long option at its equals sign. -/
def splitLong (text : String) : String × Option String :=
  let body := text.toList.drop 2
  let name := String.ofList (body.takeWhile (· != '='))
  match body.dropWhile (· != '=') with
  | [] => (name, none)
  | _ :: value => (name, some (String.ofList value))

def addAll (a : Arguments) : List String → Option Arguments
  | [] => some a
  | text :: rest => (a.addPositional text).bind (addAll · rest)

/-- Reads the arguments after a command word; `pending` is an option that waits for its value. -/
def scan (specs : List OptionSpec) : Option OptionSpec → Arguments → List String → Option Scanned
  | some _, _, [] => none
  | none, a, [] => some (.arguments a)
  | some spec, a, text :: rest =>
    if isOption text then none
    else
      match a.addOption spec text with
      | some a => scan specs none a rest
      | none => none
  | none, a, text :: rest =>
    if text == "--" then (addAll a rest).map .arguments
    else if text.startsWith "--" then
      let (name, attached) := splitLong text
      if name == "help" && attached.isNone then some .help
      else
        match OptionSpec.ofLong? specs name, attached with
        | none, _ => none
        | some spec, none => scan specs (some spec) a rest
        | some spec, some value =>
          match a.addOption spec value with
          | some a => scan specs none a rest
          | none => none
    else if isOption text then
      match text.toList with
      | _ :: letter :: attached =>
        if letter == 'h' then some .help
        else
          match OptionSpec.ofShort? specs letter, attached with
          | none, _ => none
          | some spec, [] => scan specs (some spec) a rest
          | some spec, first :: others =>
            let value := if first == '=' then others else first :: others
            match a.addOption spec (String.ofList value) with
            | some a => scan specs none a rest
            | none => none
      | _ => none
    else
      match a.addPositional text with
      | some a => scan specs none a rest
      | none => none

/-- A path that must not be empty. -/
def path? (text : String) : Option String := if text.isEmpty then none else some text

/-- Reads a value that may be absent but not wrong. -/
def optional {α : Type} (parse : String → Option α) : Option String → Option (Option α)
  | none => some none
  | some text => (parse text).map some

def convertOptions : List OptionSpec :=
  [⟨"to", none, false⟩, ⟨"naming", none, false⟩, ⟨"target-version", none, false⟩,
    ⟨"components", none, false⟩, ⟨"output", some 'o', false⟩]

def checkOptions : List OptionSpec := [⟨"components", none, false⟩]

def splitOptions : List OptionSpec :=
  [⟨"disaggregate", none, true⟩, ⟨"out-dir", none, false⟩, ⟨"to", none, false⟩]

def convertOf (a : Arguments) : Option Command := do
  let input ← path? (← a.positional.head?)
  let format ← Format.ofName? (← a.option? "to")
  let naming ← optional (fun text => (NamingMode.parse text).toOption) (a.option? "naming")
  let release ← optional Release.ofName? (a.option? "target-version")
  let components ← optional path? (a.option? "components")
  let output ← optional path? (a.option? "output")
  return .convert input format naming release components output

def checkOf (a : Arguments) : Option Command := do
  let input ← path? (← a.positional.head?)
  return .check input (← optional path? (a.option? "components"))

def splitOf (a : Arguments) : Option Command := do
  let input ← path? (← a.positional.head?)
  let outDir ← path? (← a.option? "out-dir")
  let format ← optional Format.ofName? (a.option? "to")
  if (a.values "disaggregate").isEmpty then none
  else return .split input (a.values "disaggregate") outDir format

def commandOf (specs : List OptionSpec) (build : Arguments → Option Command)
    (rest : List String) : Option Request := do
  match ← scan specs none .empty rest with
  | .help => return .help
  | .arguments a => return .run (← build a)

/-- Reads all arguments; none is a usage error. -/
def request? : List String → Option Request
  | "--version" :: _ | "-V" :: _ => some .version
  | "--help" :: _ | "-h" :: _ | "help" :: _ => some .help
  | "convert" :: rest => commandOf convertOptions convertOf rest
  | "check" :: rest => commandOf checkOptions checkOf rest
  | "split" :: rest => commandOf splitOptions splitOf rest
  | _ => none

end AgentGraph.CommandLine
