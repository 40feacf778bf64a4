import AgentGraph.Load.Error
import AgentGraph.Naming
/-!
# The scan before loading

Before anything is built the whole document is walked once, each tree before what stands in it and
in the order of keys. The walk collects every sidecar entry and every reference that is used;
references that nothing defines are reported together.
-/
namespace AgentGraph

/-- What was found in a document. -/
structure Scan where
  /-- The sidecar entries, wherever they stand. -/
  defined : Dict (Dict Tree)
  /-- The ids that are referred to, in order of first use. -/
  used : List String

namespace Scan

def empty : Scan := ⟨[], []⟩

/-- Notes that an id is referred to. -/
def use (s : Scan) (id : String) : Scan :=
  if s.used.contains id then s else { s with used := s.used ++ [id] }

/-- Notes a reference, if the mapping holds one. -/
def noteReference (protocol : Protocol) (entries : Dict Tree) (s : Scan) :
    Except LoadError Scan :=
  match Dict.get? entries protocol.componentRef with
  | none => .ok s
  | some (.string id) => .ok (s.use id)
  | some other =>
    .error (.malformedReference
      (protocol.componentRef ++ " must be a string, got " ++ other.kindName))

/-- Notes the entries of a sidecar in order. -/
def noteEntries : List (String × Tree) → Scan → Except LoadError Scan
  | [], s => .ok s
  | (id, record) :: rest, s =>
    match record with
    | .map fields =>
      if Dict.has s.defined id then .error (.duplicateEntry id)
      else noteEntries rest { s with defined := s.defined ++ [(id, fields)] }
    | other =>
      .error (.malformedSidecar ("entry " ++ id ++ " is " ++ other.kindName ++ ", not a mapping"))

/-- Notes the sidecar of a mapping, if it has one. -/
def noteSidecar (protocol : Protocol) (entries : Dict Tree) (s : Scan) : Except LoadError Scan :=
  match Dict.get? entries protocol.referencedComponents with
  | none => .ok s
  | some (.map records) => noteEntries records s
  | some other =>
    .error (.malformedSidecar
      (protocol.referencedComponents ++ " must be a mapping, got " ++ other.kindName))

/-- Notes what a tree itself says; what stands in it is not looked at. -/
def note (protocol : Protocol) (t : Tree) (s : Scan) : Except LoadError Scan :=
  match t with
  | .map entries => do
    let s ← noteReference protocol entries s
    noteSidecar protocol entries s
  | _ => .ok s

/-- Walks the trees of a worklist; the children of a tree are walked right after it. -/
def walk (protocol : Protocol) (stack : List Tree) (s : Scan) : Except LoadError Scan :=
  match stack with
  | [] => .ok s
  | t :: rest =>
    match note protocol t s with
    | .error e => .error e
    | .ok s => walk protocol (t.children ++ rest) s
termination_by Tree.sizeList stack
decreasing_by
  have := Tree.sizeList_children_lt t
  simp only [Tree.sizeList, Tree.sizeList_append]
  omega

/-- The ids that are used but neither defined nor supplied, in order of first use. -/
def missing (supplied : Dict Component) (s : Scan) : List String :=
  s.used.filter fun id => !Dict.has s.defined id && !Dict.has supplied id

/-- Scans a document. -/
def ofDocument (protocol : Protocol) (supplied : Dict Component) (document : Tree) :
    Except LoadError Scan := do
  let s ← walk protocol [document] empty
  let missing := s.missing supplied
  if missing.isEmpty then return s else throw (.missingReferences missing)

end Scan
end AgentGraph
