import AgentGraph.CommandLine.Arguments
import AgentGraph.Component.Reach
import AgentGraph.Settings.EnvFile
import AgentGraph.Settings
import AgentGraph.Store
/-!
# The command line

Three commands: `convert` writes a document again, `check` says what its root is, and `split` moves
components to a sidecar. A failing command tells every cause from the outermost on.
-/
namespace AgentGraph.CommandLine

/-- The name and version of the program. -/
def versionText : String := "agentspec 0.1.0\n"

/-- What a run of the program leaves behind besides files. -/
structure Outcome where
  code : Nat
  output : String
  /-- What is told about a failure. -/
  message : Option String

/-- A text with that of a cause behind it. -/
def within (context cause : String) : String := context ++ ": " ++ cause

variable {m : Type → Type} [Monad m] [Disk m]

/-- A step of a command; a failure is the text to be told. -/
abbrev Step (m : Type → Type) := ExceptT String m

/-- A result that may be a failure, told within a context. -/
def orFail {ε α : Type} (message : ε → String) (result : Except ε α) : Step m α :=
  ExceptT.mk (return result.mapError message)

/-- The format of a path, by its extension. -/
def formatOf (path : String) : Step m Format :=
  match Format.ofPath? path with
  | some format => return format
  | none => throw ("cannot tell the format of " ++ path ++ "; use .json, .yaml or .yml")

/-- Reads the tree of a file and finds out how it spells its names. -/
def readTree (settings : Settings) (path : String) : Step m (Tree × NamingMode) := do
  let format ← formatOf path
  let text ← orFail (fun e : Fault => within ("reading " ++ path) e.message)
    (← Disk.read (m := m) (Path.ofText path))
  if text.utf8ByteSize > settings.maxInputSize then
    throw (path ++ " is " ++ toString text.utf8ByteSize ++ " bytes, over the limit of " ++
      toString settings.maxInputSize)
  let t ← orFail (fun e : CodecError => within ("parsing " ++ path) e.message)
    (format.decode text)
  return (t, (NamingMode.detect? t).getD settings.naming)

/-- A failure to load a file. -/
def loadFailure (path : String) (e : LoadError) : String := within ("loading " ++ path) e.message

/-- Supplies what a file with components holds. -/
def supplyFrom (settings : Settings) (path : String) (supply : Supply) :
    Step m (LoadOptions × Supply) := do
  let (t, naming) ← readTree settings path
  let options := settings.loadOptions
  let (loaded, supply) ← orFail (loadFailure path)
    (load .builtin { options with naming, disaggregatedOnly := true } t supply)
  match loaded with
  | .referenced components => return (options.supply components, supply)
  | .component root => return (options.supplyOne root, supply)

/-- Loads the root component of a file. -/
def readComponent (settings : Settings) (path : String) (components : Option String) :
    Step m Component := do
  let supply : Supply := ⟨0, 0⟩
  let (options, supply) ← match components with
    | some sidecar => supplyFrom settings sidecar supply
    | none => pure (settings.loadOptions, supply)
  let (t, naming) ← readTree settings path
  let root := load .builtin { options with naming } t supply >>= fun r => r.1.component?
  orFail (loadFailure path) root

/-- Writes a document again. -/
def convert (settings : Settings) (input : String) (format : Format)
    (naming : Option NamingMode) (release : Option Release) (components output : Option String) :
    Step m String := do
  let root ← readComponent settings input components
  let options := settings.saveOptions
  let options :=
    { options with naming := naming.getD options.naming, release := release.getD options.release }
  let saved ← orFail SaveError.message (save .builtin .builtin options root)
  let text := format.encode saved.document
  match output with
  | none => return text
  | some path =>
    orFail (fun e : Fault => within ("writing " ++ path) e.message)
      (← Disk.write (m := m) (Path.ofText path) text)
    return ""

/-- Says what the root of a document is. -/
def check (settings : Settings) (input : String) (components : Option String) :
    Step m String := do
  let root ← readComponent settings input components
  let count := root.reachable.length
  return root.componentType ++ " " ++ root.id ++ " " ++ Text.quote root.name ++ ": " ++
    toString count ++ " component" ++ (if count = 1 then "" else "s") ++ "\n"

/-- The text of the path of a file in a directory. -/
def joinText (directory file : String) : String :=
  if directory.endsWith "/" then directory ++ file else directory ++ "/" ++ file

/-- Moves components of a document to a sidecar. -/
def split (settings : Settings) (input : String) (disaggregated : List String)
    (outDir : String) (format : Option Format) : Step m String := do
  let root ← readComponent settings input none
  let format ← match format with
    | some format => pure format
    | none => formatOf input
  match Format.fileName? input with
  | none => throw (input ++ " has no usable file name")
  | some file =>
    let options :=
      { settings.saveOptions with disaggregated := disaggregated.map fun id => (id, none) }
    let store : Store := ⟨Path.ofText outDir, .builtin, .builtin⟩
    let files ← ExceptT.adapt StoreError.fullMessage
      (store.save (m := m) (Store.stemOf file) root options format)
    return "".intercalate
      ((files.document :: files.sidecar.toList).map fun name => joinText outDir name ++ "\n")

/-- Runs a command; gives what is printed. -/
def runCommand (settings : Settings) : Command → Step m String
  | .convert input format naming release components output =>
    convert settings input format naming release components output
  | .check input components => check settings input components
  | .split input disaggregated outDir format => split settings input disaggregated outDir format

/-- The variables after the environment file, if there is one, was read. -/
def withEnvFile (set : Dict String) : m (Dict String) := do
  match ← Disk.read (Path.ofText ".env") with
  | .ok text => return EnvFile.load set text
  | .error _ => return set

/-- Runs a command with the settings that the variables give. -/
def runWith (set : Dict String) (command : Command) : Step m String := do
  let settings ← orFail
    (fun e : SettingsError => within "invalid AGENTSPEC_* configuration" e.message)
    (Settings.ofVariables set.get?)
  runCommand settings command

def run (set : Dict String) (arguments : List String) : m Outcome := do
  let set ← withEnvFile set
  match request? arguments with
  | none => return ⟨2, "", none⟩
  | some .version => return ⟨0, versionText, none⟩
  | some .help => return ⟨0, "", none⟩
  | some (.run command) =>
    match ← (runWith set command).run with
    | .ok output => return ⟨0, output, none⟩
    | .error message => return ⟨1, "", some message⟩

end AgentGraph.CommandLine
