import AgentGraph.Load
import AgentGraph.Save
import AgentGraph.Text.Blank
/-!
# Settings from the environment

Variables choose the spelling, the release and the limits that saves and loads start from. A blank
value counts as none.
-/
namespace AgentGraph

/-- A variable with a value that it cannot have. -/
inductive SettingsError where
  | invalidNaming (value : String)
  | invalidVersion (value : String)
  | invalidLimit (name value : String)
  deriving DecidableEq

def SettingsError.message : SettingsError → String
  | invalidNaming value =>
    "AGENTSPEC_NAMING must be canonical or alternate, got " ++ Text.quote value
  | invalidVersion value => "AGENTSPEC_TARGET_VERSION is not a known version: " ++ Text.quote value
  | invalidLimit name value => name ++ " must be a positive integer, got " ++ Text.quote value

/-- What saves and loads start from. -/
structure Settings where
  naming : NamingMode
  release : Release
  maxInputSize : Nat
  maxDepth : Nat
  deriving DecidableEq

namespace Settings

/-- The settings when no variable is set. -/
def default : Settings :=
  { naming := .default, release := .current, maxInputSize := LoadOptions.defaultMaxInputSize,
    maxDepth := LoadOptions.defaultMaxDepth }

def maxLimit : Nat := Nat.pow 2 64 - 1

/-- The value of decimal digits, perhaps after a plus sign. -/
def number? (text : String) : Option Nat :=
  let digits := match text.toList with
    | '+' :: rest => rest
    | cs => cs
  if digits.isEmpty || !digits.all Char.isDigit then none
  else
    let n := digits.foldl (fun n c => n * 10 + (c.toNat - 48)) 0
    if n ≤ maxLimit then some n else none

/-- The value of a variable unless it is blank. -/
def nonBlank? (lookup : String → Option String) (name : String) : Option String :=
  (lookup name).filter fun value => !(Text.trim value).isEmpty

/-- Reads a variable, if it is set, and takes a value otherwise. -/
def read {α : Type} (lookup : String → Option String) (name : String)
    (parse : String → Option α) (error : String → SettingsError) (otherwise : α) :
    Except SettingsError α :=
  match nonBlank? lookup name with
  | none => .ok otherwise
  | some value =>
    match parse (Text.trim value) with
    | some a => .ok a
    | none => .error (error value)

/-- Reads a limit, which must be positive. -/
def readLimit (lookup : String → Option String) (name : String) (otherwise : Nat) :
    Except SettingsError Nat :=
  read lookup name (fun text => (number? text).filter (0 < ·)) (.invalidLimit name) otherwise

/-- Reads the settings; the first variable with a wrong value is reported. -/
def ofVariables (lookup : String → Option String) : Except SettingsError Settings := do
  let naming ← read lookup "AGENTSPEC_NAMING" (fun text => (NamingMode.parse text).toOption)
    .invalidNaming default.naming
  let release ← read lookup "AGENTSPEC_TARGET_VERSION" Release.ofName? .invalidVersion
    default.release
  let maxInputSize ← readLimit lookup "AGENTSPEC_MAX_INPUT_SIZE" default.maxInputSize
  let maxDepth ← readLimit lookup "AGENTSPEC_MAX_DEPTH" default.maxDepth
  return { naming, release, maxInputSize, maxDepth }

def saveOptions (s : Settings) : SaveOptions :=
  { SaveOptions.default with naming := s.naming, release := s.release, maxDepth := s.maxDepth }

def loadOptions (s : Settings) : LoadOptions :=
  { LoadOptions.default with
    naming := s.naming, maxInputSize := s.maxInputSize, maxDepth := s.maxDepth }

end Settings
end AgentGraph
