import AgentGraph.Plugin.Builtin
/-!
# The registry

Routes every component type to the one plugin that claims it. Plugins are asked in the order given,
the builtin plugin after all others; no type may be claimed twice.
-/
namespace AgentGraph

/-- A type that is claimed twice. -/
inductive RegistryError where
  | duplicateType (type first second : String)
  deriving DecidableEq

def RegistryError.message : RegistryError → String
  | duplicateType type first second =>
    "component type " ++ type ++ " is claimed by both " ++ first ++ " and " ++ second

/-- The plugins beside the builtin one. -/
structure Registry where
  extensions : List Plugin

/-- The plugin that is responsible for a type. -/
structure Owner where
  plugin : Plugin
  builtin : Bool

namespace Registry

def builtin : Registry := ⟨[]⟩

/-- All plugins, the builtin one last. -/
def plugins (r : Registry) : List Plugin := r.extensions ++ [Plugin.builtin]

/-- Every claimed type with the name of the plugin that claims it, in order. -/
def claims (plugins : List Plugin) : List (String × String) :=
  plugins.flatMap fun p => p.types.map (·, p.name)

/-- Checks that no type is claimed twice, given the claims before. -/
def checkClaims : List (String × String) → List (String × String) → Except RegistryError Unit
  | _, [] => .ok ()
  | before, (type, name) :: rest =>
    match before.lookup type with
    | some first => .error (.duplicateType type first name)
    | none => checkClaims ((type, name) :: before) rest

/-- A registry of plugins beside the builtin one. -/
def ofPlugins (extensions : List Plugin) : Except RegistryError Registry := do
  let registry : Registry := ⟨extensions⟩
  checkClaims [] (claims registry.plugins)
  return registry

/-- The plugin responsible for a type, if any. -/
def owner? (r : Registry) (type : String) : Option Owner :=
  match r.extensions.find? (·.types.contains type) with
  | some plugin => some ⟨plugin, false⟩
  | none => if Plugin.builtin.types.contains type then some ⟨Plugin.builtin, true⟩ else none

end Registry
end AgentGraph
