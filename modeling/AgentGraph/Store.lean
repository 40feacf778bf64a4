import AgentGraph.Disk
import AgentGraph.Load
import AgentGraph.Save
/-!
# A store of documents

A directory holds each document under its name, and its sidecar beside it. A save writes every
file under a passing name first and then renames it, and removes the sidecar of an earlier save
that has none any more. A load reads the sidecar before the document.
-/
namespace AgentGraph

/-- Causes for which an operation on a store fails. -/
inductive StoreError where
  | io (cause : Fault)
  | save (cause : SaveError)
  | load (cause : LoadError)
  | invalidName (name : String)
  | notFound (name : String)
  | noRootComponent (name : String)
  deriving DecidableEq

def StoreError.message : StoreError → String
  | io cause => "io error: " ++ cause.message
  | save cause => "serialization error: " ++ cause.message
  | load cause => "deserialization error: " ++ cause.message
  | invalidName name => "invalid document name: " ++ Text.quote name
  | notFound name => "no document named " ++ name
  | noRootComponent name => name ++ " holds only referenced components"

/-- The text of the error with that of its cause after it. -/
def StoreError.fullMessage (e : StoreError) : String :=
  match e with
  | io cause => e.message ++ ": " ++ cause.message
  | save cause => e.message ++ ": " ++ cause.message
  | load cause => e.message ++ ": " ++ cause.message
  | _ => e.message

/-- A store of documents. -/
structure Store where
  root : Path
  registry : Registry
  policy : Policy

/-- The names of the files that a save wrote. -/
structure StoredFiles where
  document : String
  sidecar : Option String

namespace Store

/-- What the name of a sidecar ends with. -/
def sidecarSuffix : String := ".components"

/-- Whether a document can have the name. -/
def isValidName (name : String) : Bool :=
  !name.isEmpty && !name.startsWith "." && !name.endsWith sidecarSuffix &&
    !name.toList.any fun c => c == '/' || c == '\\'

/-- Refuses a name that no document can have. -/
def checkName (name : String) : Except StoreError Unit :=
  if isValidName name then .ok () else .error (.invalidName name)

def documentName (name : String) (format : Format) : String := name ++ "." ++ format.extension

def sidecarName (name : String) (format : Format) : String :=
  name ++ sidecarSuffix ++ "." ++ format.extension

/-- The name under which a file is written first. -/
def passingName (file : String) : String := file ++ ".tmp"

variable {m : Type → Type} [Monad m] [Disk m]

/-- A step that may fail with a fault of the disk. -/
def orFault {α : Type} (step : m (Except Fault α)) : ExceptT StoreError m α :=
  ExceptT.mk do return (← step).mapError .io

/-- A result that may be an error of the store. -/
def orError {α : Type} (result : Except StoreError α) : ExceptT StoreError m α :=
  ExceptT.mk (return result)

/-- Writes a file under its passing name and renames it. -/
def writeWhole (store : Store) (file text : String) : ExceptT StoreError m Unit := do
  let passing := store.root.child (passingName file)
  orFault (Disk.write passing text)
  orFault (Disk.rename passing (store.root.child file))

/-- Writes the sidecar of a save, or removes the one of an earlier save. -/
def writeSidecar (store : Store) (file : String) (format : Format) (sidecar : Option Tree) :
    ExceptT StoreError m (Option String) := do
  match sidecar with
  | some t =>
    store.writeWhole file (format.encode t)
    return some file
  | none =>
    if ← Disk.present (m := m) (store.root.child file) then
      orFault (Disk.remove (store.root.child file))
    return none

/-- Saves a graph under a name. The sidecar is written whenever components are forced into it. -/
def save (store : Store) (name : String) (root : Component) (options : SaveOptions)
    (format : Format) : ExceptT StoreError m StoredFiles := do
  orError (checkName name)
  orFault (Disk.makeDirectories store.root)
  let options := { options with exportSidecar := !options.disaggregated.isEmpty }
  let saved ← orError
    ((AgentGraph.save store.registry store.policy options root).mapError .save)
  let document := documentName name format
  store.writeWhole document (format.encode saved.document)
  let sidecar ← store.writeSidecar (sidecarName name format) format saved.sidecar
  return ⟨document, sidecar⟩

/-- The format in which a document is there; YAML is looked for first. -/
def find (store : Store) (name : String) : m (Option Format) := do
  if ← Disk.present (store.root.child (documentName name .yaml)) then return some .yaml
  else if ← Disk.present (store.root.child (documentName name .json)) then return some .json
  else return none

/-- Loads the text of a file of the store. -/
def loadFile (store : Store) (file : String) (format : Format) (options : LoadOptions)
    (supply : Supply) : ExceptT StoreError m (Loaded × Supply) := do
  let text ← orFault (Disk.read (store.root.child file))
  orError ((loadText store.registry options format text supply).mapError .load)

/-- Adds a component under an id that is not in use yet. -/
def addMissing (supplied : Dict Component) (entry : String × Component) : Dict Component :=
  if Dict.has supplied entry.1 then supplied else Dict.put supplied entry.1 entry.2

/-- Supplies components that are not supplied yet. -/
def supplyMissing (options : LoadOptions) (components : Dict Component) : LoadOptions :=
  { options with supplied := components.foldl addMissing options.supplied }

/-- Loads the sidecar of a document, if it is there, and supplies its components. -/
def loadSidecar (store : Store) (file : String) (format : Format) (options : LoadOptions)
    (supply : Supply) : ExceptT StoreError m (LoadOptions × Supply) := do
  if ← Disk.present (m := m) (store.root.child file) then
    let (loaded, supply) ←
      store.loadFile file format { options with disaggregatedOnly := true } supply
    match loaded with
    | .referenced components => return (supplyMissing options components, supply)
    | .component _ => return (options, supply)
  else return (options, supply)

/-- Loads the document of a name. Components that the options supply come before those of its
sidecar. -/
def load (store : Store) (name : String) (options : LoadOptions) (supply : Supply) :
    ExceptT StoreError m (Component × Supply) := do
  orError (checkName name)
  match ← store.find (m := m) name with
  | none => throw (.notFound name)
  | some format =>
    let (options, supply) ← store.loadSidecar (sidecarName name format) format options supply
    let (loaded, supply) ← store.loadFile (documentName name format) format options supply
    match loaded with
    | .component root => return (root, supply)
    | .referenced _ => throw (.noRootComponent name)

/-- The file name without its extension. -/
def stemOf (file : String) : String :=
  match Format.extensionOf? file with
  | some extension => (file.dropEnd (extension.length + 1)).toString
  | none => file

/-- The name of the document that a file holds, if it holds one. -/
def documentOf? (file : String) : Option String :=
  match Format.extensionOf? file >>= Format.ofName? with
  | some _ => if (stemOf file).endsWith sidecarSuffix then none else some (stemOf file)
  | none => none

/-- Sorts names and drops repetitions. -/
def sorted (names : List String) : List String :=
  (names.mergeSort fun a b => decide (a ≤ b)).eraseDups

/-- The names of the documents in the store. -/
def list (store : Store) : ExceptT StoreError m (List String) := do
  if ← Disk.present (m := m) store.root then
    let files ← orFault (Disk.names store.root)
    return sorted (files.filterMap documentOf?)
  else return []

end Store
end AgentGraph
