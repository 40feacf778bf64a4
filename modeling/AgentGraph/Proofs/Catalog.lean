import Mathlib.Data.List.Nodup
import AgentGraph.Proofs.Graph
import AgentGraph.Proofs.Run
import AgentGraph.Naming
import AgentGraph.Tree.ReservedKeys
/-!
# The builtin catalog

Which fields the kinds of the builtin catalog have, which of these hold components, and how they are
spelled. In both spellings the fields of a type are told apart from each other, from the base fields
and from the protocol names. The builtin policy hides no field that holds components.
-/
namespace AgentGraph

namespace Builtin

/-- The fields of the configurations of language models. -/
def configFields : List String :=
  ["url", "modelId", "apiKey", "apiType", "defaultGenerationParameters"]

def toolFields : List String :=
  ["inputs", "outputs", "url", "httpMethod", "apiHeaders", "sensitiveHeaders", "data",
    "requiresConfirmation"]

/-- The fields that a type may have, in order. -/
def fieldNames : String → List String
  | "OpenAiConfig" => configFields
  | "OpenAiCompatibleConfig" => configFields
  | "VllmConfig" => configFields
  | "OllamaConfig" => configFields
  | "ServerTool" => toolFields
  | "ClientTool" => toolFields
  | "RemoteTool" => toolFields
  | "Agent" => ["inputs", "outputs", "llmConfig", "systemPrompt", "tools", "humanInTheLoop"]
  | "Swarm" => ["firstAgent", "relationships"]
  | "ManagerWorkers" => ["groupManager", "workers"]
  | "Flow" =>
    ["inputs", "outputs", "startNode", "nodes", "controlFlowConnections", "dataFlowConnections"]
  | "StartNode" => ["inputs", "outputs"]
  | "EndNode" => ["inputs", "outputs", "branchName"]
  | "LlmNode" => ["inputs", "outputs", "llmConfig", "promptTemplate"]
  | "ToolNode" => ["inputs", "outputs", "tool"]
  | "AgentNode" => ["inputs", "outputs", "agent"]
  | "FlowNode" => ["inputs", "outputs", "subflow"]
  | "BranchingNode" => ["inputs", "outputs", "mapping"]
  | "ControlFlowEdge" => ["fromNode", "fromBranch", "toNode"]
  | "DataFlowEdge" => ["sourceNode", "sourceOutput", "destinationNode", "destinationInput"]
  | _ => []

/-- The fields of a type that hold components, in order. -/
def componentFields : String → List String
  | "Agent" => ["llmConfig", "tools"]
  | "Swarm" => ["firstAgent", "relationships"]
  | "ManagerWorkers" => ["groupManager", "workers"]
  | "Flow" => ["startNode", "nodes", "controlFlowConnections", "dataFlowConnections"]
  | "LlmNode" => ["llmConfig"]
  | "ToolNode" => ["tool"]
  | "AgentNode" => ["agent"]
  | "FlowNode" => ["subflow"]
  | "ControlFlowEdge" => ["fromNode", "toNode"]
  | "DataFlowEdge" => ["sourceNode", "destinationNode"]
  | _ => []

/-- Every name that a record of a type may use in a spelling. -/
def recordKeys (naming : NamingMode) (type : String) : List String :=
  (fieldNames type).map naming.toDocument ++ naming.protocol.names ++ Record.baseFields

theorem nodup_recordKeys (naming : NamingMode) {type : String} (h : type ∈ types) :
    (recordKeys naming type).Nodup := by
  revert type
  cases naming <;> decide +kernel

/-- No key of a record of a builtin type is reserved. -/
theorem unreserved_recordKeys (naming : NamingMode) {type key : String} (ht : type ∈ types)
    (h : key ∈ recordKeys naming type) : isReservedKey key = false := by
  have hall : ∀ type ∈ types, ∀ key ∈ recordKeys naming type, isReservedKey key = false := by
    cases naming <;> decide +kernel
  exact hall type ht key h

theorem componentFields_shown {type field : String} (h : type ∈ types)
    (hf : field ∈ componentFields type) (release : Release) :
    Policy.builtin.shows release type field = true := by
  have hall : ∀ type ∈ types, ∀ field ∈ componentFields type,
      Policy.builtin.shows release type field = true := by
    cases release <;> decide +kernel
  exact hall type h field hf

end Builtin

namespace Value

theorem componentsOfEntries_append (xs ys : Dict Value) :
    componentsOfEntries (xs ++ ys) = componentsOfEntries xs ++ componentsOfEntries ys := by
  rw [componentsOfEntries_eq, componentsOfEntries_eq, componentsOfEntries_eq, List.flatMap_append]

@[simp] theorem components_text (s : String) : (text s).components = [] := by
  simp [text, components]

@[simp] theorem components_bool (b : Bool) : (bool b).components = [] := by
  simp [bool, components]

@[simp] theorem components_mapping (entries : Dict Tree) : (mapping entries).components = [] := by
  simp [mapping, components]

@[simp] theorem components_component (c : Component) : (component c).components = [c] := by
  simp [components]

@[simp] theorem components_componentList (cs : List Component) :
    (componentList cs).components = cs := by
  rw [componentList, components, componentsOfList_eq, List.flatMap_map]
  simp

@[simp] theorem components_propertyList (ps : List Property) :
    (propertyList ps).components = [] := by
  rw [propertyList, components, componentsOfList_eq, List.flatMap_map]
  simp [components]

theorem components_pairList (ps : List (Component × Component)) :
    (list (ps.map fun p => .componentList [p.1, p.2])).components =
      ps.flatMap fun p => [p.1, p.2] := by
  rw [components, componentsOfList_eq, List.flatMap_map]
  simp

end Value

namespace Kind
variable {k : Kind}

theorem type_mem (h : k.isBuiltin = true) : k.componentType ∈ Builtin.types := by
  cases k with
  | modelConfig c =>
    simp only [componentType]
    cases c.provider <;> decide
  | tool t =>
    simp only [componentType, Tool.componentType]
    cases t.site <;> simp only <;> decide
  | node role s =>
    simp only [componentType]
    cases role <;> simp only [NodeRole.componentType] <;> decide
  | extension t fs => cases h
  | _ =>
    simp only [componentType]
    decide

theorem keys_optionalText (field : String) (text : Option String) :
    (Dict.keys (optionalText field text)).Sublist [field] := by
  cases text <;> simp [optionalText, Dict.keys]

/-- The fields of a builtin kind are those of its type, in their order. -/
theorem keys_fields (h : k.isBuiltin = true) :
    (Dict.keys k.fields).Sublist (Builtin.fieldNames k.componentType) := by
  cases k with
  | modelConfig c =>
    have hnames : Builtin.fieldNames c.provider.componentType =
        ["url"] ++ ["modelId"] ++ ["apiKey"] ++ ["apiType"] ++ ["defaultGenerationParameters"] := by
      cases c.provider <;> rfl
    simp only [componentType, hnames, fields, ModelConfig.fields, Dict.keys_append]
    refine .append (.append (.append (.append (keys_optionalText _ _) (.refl _))
      (keys_optionalText _ _)) (keys_optionalText _ _)) ?_
    cases c.parameters <;> simp
  | tool t =>
    have hshort : List.Sublist ["inputs", "outputs", "requiresConfirmation"] Builtin.toolFields := by
      decide
    simp only [componentType, Tool.componentType, fields, Tool.fields, Dict.keys_append]
    cases t.site with
    | remote e => exact .refl _
    | _ => exact hshort
  | node role s =>
    simp only [componentType, fields, Dict.keys_append]
    cases role with
    | finish b => exact .append (.refl _) (keys_optionalText _ _)
    | _ => exact .refl _
  | controlFlowEdge f b t =>
    simp only [componentType, fields, Dict.keys_append]
    exact .append (.append (.refl _) (keys_optionalText _ _)) (.refl _)
  | extension t fs => cases h
  | _ => exact .refl _

/-- The components under a field, if the field is there. -/
def componentsAt (fields : Dict Value) (field : String) : List Component :=
  match fields.get? field with
  | some v => v.components
  | none => []

@[simp] theorem held_optionalText (field : String) (text : Option String) :
    Value.componentsOfEntries (optionalText field text) = [] := by
  cases text <;> simp [optionalText, Value.componentsOfEntries]

@[simp] theorem held_modelConfig (c : ModelConfig) : heldComponents (modelConfig c).fields = [] := by
  cases hp : c.parameters <;>
    simp [fields, ModelConfig.fields, heldComponents, Value.componentsOfEntries_append,
      Value.componentsOfEntries, hp]

@[simp] theorem held_tool (t : Tool) : heldComponents (tool t).fields = [] := by
  cases hs : t.site <;>
    simp [fields, Tool.fields, Slots.fields, Endpoint.fields, heldComponents,
      Value.componentsOfEntries, hs]

@[simp] theorem held_agent (l : Component) (p : String) (ts : List Component) (h : Bool) (s : Slots) :
    heldComponents (agent l p ts h s).fields = l :: ts := by
  simp [fields, Slots.fields, heldComponents, Value.componentsOfEntries]

/-- The components of pairs in order. -/
def heldPairs (rs : List (Component × Component)) : List Component :=
  rs.flatMap fun p => [p.1, p.2]

@[simp] theorem held_swarm (f : Component) (rs : List (Component × Component)) :
    heldComponents (swarm f rs).fields = f :: heldPairs rs := by
  simp [fields, heldComponents, Value.componentsOfEntries, Value.components_pairList, heldPairs]

@[simp] theorem held_managerWorkers (m : Component) (ws : List Component) :
    heldComponents (managerWorkers m ws).fields = m :: ws := by
  simp [fields, heldComponents, Value.componentsOfEntries]

@[simp] theorem held_flow (n : Component) (ns cs ds : List Component) (s : Slots) :
    heldComponents (flow n ns cs ds s).fields = n :: (ns ++ (cs ++ ds)) := by
  simp [fields, Slots.fields, heldComponents, Value.componentsOfEntries]

@[simp] theorem held_node (r : NodeRole) (s : Slots) :
    heldComponents (node r s).fields = heldComponents r.fields := by
  simp [fields, Slots.fields, heldComponents, Value.componentsOfEntries]

/-- The component that the role of a node holds, if any. -/
def heldByRole : NodeRole → List Component
  | .llm c _ | .tool c | .agent c | .flow c => [c]
  | _ => []

theorem held_role (r : NodeRole) : heldComponents r.fields = heldByRole r := by
  cases r with
  | finish b => simp [NodeRole.fields, heldComponents, heldByRole]
  | _ => simp [NodeRole.fields, heldComponents, Value.componentsOfEntries, heldByRole]

@[simp] theorem held_controlFlowEdge (f t : Component) (b : Option String) :
    heldComponents (controlFlowEdge f b t).fields = [f, t] := by
  cases b <;> simp [fields, heldComponents, Value.componentsOfEntries, optionalText]

@[simp] theorem held_dataFlowEdge (s d : Component) (o i : String) :
    heldComponents (dataFlowEdge s o d i).fields = [s, d] := by
  simp [fields, heldComponents, Value.componentsOfEntries]

/-- The components of a builtin kind stand in the fields of its type that are for components. -/
theorem held_eq (h : k.isBuiltin = true) : heldComponents k.fields =
    (Builtin.componentFields k.componentType).flatMap (componentsAt k.fields) := by
  cases k with
  | modelConfig c =>
    have hnone : Builtin.componentFields c.provider.componentType = [] := by
      cases c.provider <;> rfl
    rw [held_modelConfig, componentType, hnone]
    rfl
  | tool t =>
    have hnone : Builtin.componentFields t.componentType = [] := by
      rw [Tool.componentType]
      cases t.site <;> rfl
    rw [held_tool, componentType, hnone]
    rfl
  | agent c p ts hu s =>
    rw [held_agent]
    simp [componentType, Builtin.componentFields, componentsAt, fields, Slots.fields, Dict.get?]
  | swarm f rs =>
    rw [held_swarm]
    simp [componentType, Builtin.componentFields, componentsAt, fields, Dict.get?,
      Value.components_pairList, heldPairs]
  | managerWorkers m ws =>
    rw [held_managerWorkers]
    simp [componentType, Builtin.componentFields, componentsAt, fields, Dict.get?]
  | flow n ns cs ds s =>
    rw [held_flow]
    simp [componentType, Builtin.componentFields, componentsAt, fields, Slots.fields, Dict.get?]
  | node role s =>
    rw [held_node]
    cases role with
    | finish b =>
      cases b <;> simp [componentType, NodeRole.componentType, Builtin.componentFields,
        NodeRole.fields, heldComponents, Value.componentsOfEntries, optionalText]
    | _ =>
      simp [componentType, NodeRole.componentType, Builtin.componentFields, componentsAt, fields,
        NodeRole.fields, Slots.fields, heldComponents, Value.componentsOfEntries, Dict.get?]
  | controlFlowEdge f b t =>
    rw [held_controlFlowEdge]
    cases b <;> simp [componentType, Builtin.componentFields, componentsAt, fields, optionalText,
      Dict.get?]
  | dataFlowEdge s o d i =>
    rw [held_dataFlowEdge]
    simp [componentType, Builtin.componentFields, componentsAt, fields, Dict.get?]
  | extension t fs => cases h

end Kind
end AgentGraph
