import AgentGraph.Load.Scan
import AgentGraph.Registry
import AgentGraph.Tree.Depth
/-!
# Loading documents

A document within its limits of size and depth, freed of reserved keys and scanned for references,
is turned into components. Every id is resolved once: a reference and a record with that id give
the same object. A reference whose record is still being built closes a cycle and is refused.
-/
namespace AgentGraph

/-- How documents are loaded. -/
structure LoadOptions where
  /-- Components that a document may refer to without defining them. -/
  supplied : Dict Component
  naming : NamingMode
  /-- Whether a document may hold referenced components only. -/
  disaggregatedOnly : Bool
  maxInputSize : Nat
  maxDepth : Nat

namespace LoadOptions

/-- The largest input, in bytes, when no limit is chosen. -/
def defaultMaxInputSize : Nat := 16 * 1024 * 1024

/-- The deepest nesting when no limit is chosen. -/
def defaultMaxDepth : Nat := 64

def default : LoadOptions :=
  { supplied := [], naming := .default, disaggregatedOnly := false,
    maxInputSize := defaultMaxInputSize, maxDepth := defaultMaxDepth }

/-- Supplies components by reference id. -/
def supply (o : LoadOptions) (components : Dict Component) : LoadOptions :=
  { o with supplied := Dict.merge o.supplied components }

/-- Supplies a component under its own id. -/
def supplyOne (o : LoadOptions) (c : Component) : LoadOptions :=
  { o with supplied := Dict.put o.supplied c.id c }

end LoadOptions

/-- What a document held. -/
inductive Loaded where
  | component (root : Component)
  /-- The components of a sidecar document by reference id. -/
  | referenced (components : Dict Component)

/-- The root component, if the document had one. -/
def Loaded.component? : Loaded → Except LoadError Component
  | component root => .ok root
  | referenced _ => .error .sidecarOnly

namespace Load

/-- What stays fixed while a document is loaded. -/
structure Context where
  registry : Registry
  naming : NamingMode
  release : Release
  supplied : Dict Component
  sidecar : Dict (Dict Tree)
  maxDepth : Nat

/-- Follows a reference. A supplied component comes before a sidecar entry; the id is in progress
while the record of its entry is loaded. -/
def follow (ctx : Context) (load : Dict Tree → LoadM Component) (id : String) :
    LoadM Component := do
  match (← get).resolution.get? id with
  | some .inProgress => throw (.circularReference id)
  | some (.resolved c) => return c
  | none =>
    match Dict.get? ctx.supplied id with
    | some c =>
      setResolution id (.resolved c)
      return c
    | none =>
      match Dict.get? ctx.sidecar id with
      | none => throw (.missingReferences [id])
      | some fields =>
        setResolution id .inProgress
        let c ← load fields
        setResolution id (.resolved c)
        return c

def typeOf (naming : NamingMode) (fields : Dict Tree) : Except LoadError String :=
  let key := naming.protocol.componentType
  match Dict.get? fields key with
  | none => .error (.missingComponentType key)
  | some (.string type) => .ok type
  | some _ => .error (.invalidComponentType key)

def pluginOf (registry : Registry) (type : String) : Except LoadError Plugin :=
  match registry.owner? type with
  | some owner => .ok owner.plugin
  | none => .error (.unknownComponentType type)

/-- Builds the component of a record whose id is known. -/
def build (plugin : Plugin) (reader : Reader) (record : Record) (id : String) :
    LoadM Component := do
  let name ← record.requiredText "name"
  let description ← record.optionalText "description"
  let metadata ← record.mapping "metadata"
  let kind ← plugin.read reader record
  let c : Component := .mk (← freshHandle) id name description metadata kind
  setResolution id (.resolved c)
  return c

/-- Loads one record, within which records may nest `room - 1` levels deep. A record whose id was
built already gives the component that is there. -/
def record (ctx : Context) : Nat → Dict Tree → LoadM Component
  | 0, _ => throw (.tooDeep ctx.maxDepth)
  | room + 1, fields => do
    let type ← typeOf ctx.naming fields
    let plugin ← pluginOf ctx.registry type
    let r : Record := ⟨fields, ctx.naming, type⟩
    let id ← match ← r.optionalText "id" with
      | some id => pure id
      | none => freshId
    match (← get).resolved? id with
    | some c => return c
    | none =>
      let nested := record ctx room
      build plugin ⟨ctx.release, ctx.naming, nested, follow ctx nested⟩ r id

/-- Loads the sidecar entries of the given ids. -/
def entries (ctx : Context) : List String → LoadM (Dict Component)
  | [] => return []
  | id :: rest => do
    let c ← follow ctx (record ctx ctx.maxDepth) id
    return (id, c) :: (← entries ctx rest)

/-- The release that a document declares; the older key counts where the newer one is absent, and
a document without either is of the newest release. -/
def releaseOf (protocol : Protocol) (root : Dict Tree) : Except LoadError Release :=
  let declared := match Dict.get? root protocol.version with
    | some t => some t
    | none => Dict.get? root protocol.legacyVersion
  match declared with
  | none => .ok .current
  | some (.string text) =>
    match Release.ofName? text with
    | some release => .ok release
    | none => .error (.unknownVersion text)
  | some other => .error (.unknownVersion (Json.compact other))

/-- Loads what the root of a document stands for. -/
def root (ctx : Context) (disaggregatedOnly : Bool) (fields : Dict Tree) : LoadM Loaded := do
  let protocol := ctx.naming.protocol
  if Dict.has fields protocol.componentType then
    return .component (← record ctx ctx.maxDepth fields)
  else
    match Dict.get? fields protocol.referencedComponents with
    | none => throw (.missingComponentType protocol.componentType)
    | some sidecar =>
      if !disaggregatedOnly then throw .sidecarOnly
      else return .referenced (← entries ctx (Dict.keys (sidecar.entries?.getD [])))

/-- Refuses a document that is too large or nests too deep. -/
def checkLimits (options : LoadOptions) (document : Tree) : Except LoadError Unit := do
  let size := Json.encodedSize document
  if size > options.maxInputSize then throw (.inputTooLarge size options.maxInputSize)
  if document.exceeds options.maxDepth then throw (.tooDeep options.maxDepth)

end Load

/-- Loads a document. New objects and made-up ids come from the supply. -/
def load (registry : Registry) (options : LoadOptions) (document : Tree) (supply : Supply) :
    Except LoadError (Loaded × Supply) := do
  Load.checkLimits options document
  let document := document.strip
  match document with
  | .map fields =>
    let protocol := options.naming.protocol
    let release ← Load.releaseOf protocol fields
    let scan ← Scan.ofDocument protocol options.supplied document
    let ctx : Load.Context :=
      { registry, naming := options.naming, release, supplied := options.supplied,
        sidecar := scan.defined, maxDepth := options.maxDepth }
    let (loaded, state) ← (Load.root ctx options.disaggregatedOnly fields).run ⟨[], supply⟩
    return (loaded, state.supply)
  | other => throw (.notAMapping other.kindName)

/-- Loads the text of a document; the limit of size holds for the text before it is read. -/
def loadText (registry : Registry) (options : LoadOptions) (format : Format) (text : String)
    (supply : Supply) : Except LoadError (Loaded × Supply) := do
  if text.utf8ByteSize > options.maxInputSize then
    throw (.inputTooLarge text.utf8ByteSize options.maxInputSize)
  let document ← (format.decode text).mapError .codec
  load registry options document supply

end AgentGraph
