import AgentGraph.Dict
import AgentGraph.Release
/-!
# What may be written

A policy says from which release on a kind or a field may be written, and which fields are never
written at all. Fields go by their internal names.
-/
namespace AgentGraph

/-- Gates on kinds and fields, and the fields that stay out of every document. -/
structure Policy where
  kindGates : List (String × Release)
  fieldGates : List ((String × String) × Release)
  sensitive : List (String × String)

namespace Policy

def empty : Policy := ⟨[], [], []⟩

/-- Requires a release before anything but the discriminator of a kind is written; a later gate of
the same kind replaces an earlier one. -/
def gateKind (p : Policy) (kind : String) (release : Release) : Policy :=
  { p with kindGates := (kind, release) :: p.kindGates }

/-- Requires a release before a field of a kind is written. -/
def gateField (p : Policy) (kind field : String) (release : Release) : Policy :=
  { p with fieldGates := ((kind, field), release) :: p.fieldGates }

/-- Keeps a field of a kind out of every document. -/
def hide (p : Policy) (kind field : String) : Policy :=
  { p with sensitive := (kind, field) :: p.sensitive }

def builtin : Policy :=
  empty
    |>.gateKind "Swarm" .v25_4_2
    |>.gateKind "ManagerWorkers" .v26_1_0
    |>.gateField "Agent" "humanInTheLoop" .v25_4_2
    |>.gateField "OpenAiCompatibleConfig" "apiType" .v26_1_0
    |>.gateField "ServerTool" "requiresConfirmation" .v25_4_2
    |>.gateField "ClientTool" "requiresConfirmation" .v25_4_2
    |>.gateField "RemoteTool" "requiresConfirmation" .v25_4_2
    |>.hide "OpenAiConfig" "apiKey"
    |>.hide "OpenAiCompatibleConfig" "apiKey"
    |>.hide "RemoteTool" "sensitiveHeaders"

/-- The release from which a kind is written in full. -/
def kindMinimum? (p : Policy) (kind : String) : Option Release := p.kindGates.lookup kind

/-- Whether a kind may be written in full at a release. -/
def kindAllowed (p : Policy) (kind : String) (release : Release) : Bool :=
  match p.kindMinimum? kind with
  | some minimum => minimum.atMost release
  | none => true

/-- Whether a field of a kind may be written at a release. -/
def fieldAllowed (p : Policy) (kind field : String) (release : Release) : Bool :=
  match p.fieldGates.lookup (kind, field) with
  | some minimum => minimum.atMost release
  | none => true

/-- Whether a field of a kind is never written. -/
def isSensitive (p : Policy) (kind field : String) : Bool := p.sensitive.contains (kind, field)

end Policy
end AgentGraph
