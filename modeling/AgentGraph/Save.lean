import AgentGraph.Save.Record
/-!
# Saving graphs

A graph is looked through, the components of its sidecar are chosen, and its records are written.
The root record also carries the release, after its discriminator. A sidecar document holds the
release and the records of the components in the sidecar.
-/
namespace AgentGraph

/-- A saved graph: the document, and its sidecar if it was wanted and has entries. -/
structure Saved where
  document : Tree
  sidecar : Option Tree

namespace Writer

/-- The keys of the root record that come first, in this order; the release stands behind the first
of them. -/
def moveFirst (record : Dict Tree) (ordered : Dict Tree) (key : String) : Dict Tree :=
  match Dict.get? record key with
  | some t => Dict.put ordered key t
  | none => ordered

def releaseEntry (w : Writer) : String × Tree :=
  (w.target.naming.protocol.version, .string w.target.release.name)

/-- The root record with the release: the discriminator, the release, id, name and description come
first, the other entries after them as they stand. -/
def stampRoot (w : Writer) (record : Dict Tree) : Dict Tree :=
  let typeKey := w.target.naming.protocol.componentType
  let texts := ["id", "name", "description"]
  let ordered := moveFirst record [] typeKey
  let ordered := Dict.put ordered w.releaseEntry.1 w.releaseEntry.2
  let ordered := texts.foldl (moveFirst (Dict.remove record typeKey)) ordered
  Dict.merge ordered (record.filter fun pair => pair.1 != typeKey && !texts.contains pair.1)

/-- The records of the sidecar by the ids that references use. -/
def sidecarEntries (w : Writer) (l : Layout) : List (String × String) → Dict Tree →
    RecordM (Dict Tree)
  | [], entries => return entries
  | (id, reference) :: rest, entries =>
    match l.survey.component? id with
    | none => w.sidecarEntries l rest entries
    | some c => do
      let r ← w.record l w.maxDepth c
      w.sidecarEntries l rest (Dict.put entries reference (.map r))

def sidecarDocument (w : Writer) (l : Layout) : RecordM Tree := do
  let entries ← w.sidecarEntries l l.aliases []
  return .map [w.releaseEntry, (w.target.naming.protocol.referencedComponents, .map entries)]

/-- Writes the document and, if it is wanted, the sidecar. -/
def documents (w : Writer) (l : Layout) (root : Component) (exportSidecar : Bool) :
    RecordM Saved := do
  let record ← w.record l (w.maxDepth + 1) root
  let document := Tree.map (w.stampRoot record)
  if exportSidecar && !l.aliases.isEmpty then
    return ⟨document, some (← w.sidecarDocument l)⟩
  else return ⟨document, none⟩

end Writer

/-- Saves the graph of a root component. -/
def save (registry : Registry) (policy : Policy) (options : SaveOptions) (root : Component) :
    Except SaveError Saved := do
  let w : Writer :=
    { registry, policy, target := ⟨options.release, options.naming⟩, maxDepth := options.maxDepth }
  let (table, survey) ← (w.survey (w.maxDepth + 1) root).run .empty
  let aliases ← survey.aliases root.id options.disaggregated
  let (saved, _) ← (w.documents ⟨survey, table, aliases⟩ root options.exportSidecar).run []
  return saved

end AgentGraph
