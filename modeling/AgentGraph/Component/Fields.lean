import AgentGraph.Component.Basic
/-!
# Fields of components

Every kind lists its fields by internal name in a fixed order, inputs and outputs first. `Value.components`
gives the components that a value holds directly, and `Component.children` those of all fields; the
components below a component weigh less than the component itself.
-/
namespace AgentGraph

namespace Value

def text (s : String) : Value := .data (.string s)

def bool (b : Bool) : Value := .data (.bool b)

/-- A mapping as opaque data. -/
def mapping (entries : Dict Tree) : Value := .data (.map entries)

def componentList (cs : List Component) : Value := .list (cs.map .component)

def propertyList (ps : List Property) : Value := .list (ps.map .property)

mutual
/-- The components held directly by a value, in order, through lists and mappings. -/
def components : Value → List Component
  | .component c => [c]
  | .list items => componentsOfList items
  | .map entries => componentsOfEntries entries
  | .data _ => []
  | .property _ => []
/-- The components held directly by the values of a list. -/
def componentsOfList : List Value → List Component
  | [] => []
  | v :: rest => components v ++ componentsOfList rest
/-- The components held directly by the values of a mapping. -/
def componentsOfEntries : List (String × Value) → List Component
  | [] => []
  | (_, v) :: rest => components v ++ componentsOfEntries rest
end

/-- The text of a value that is one. -/
def text? : Value → Option String
  | .data (.string s) => some s
  | _ => none

def component? : Value → Option Component
  | .component c => some c
  | _ => none

end Value

/-- A field that is there only if its text is. -/
def optionalText (field : String) : Option String → Dict Value
  | some s => [(field, .text s)]
  | none => []

def Slots.fields (s : Slots) : Dict Value :=
  [("inputs", .propertyList s.inputs), ("outputs", .propertyList s.outputs)]

def ModelConfig.fields (c : ModelConfig) : Dict Value :=
  optionalText "url" c.url ++ [("modelId", .text c.modelId)] ++ optionalText "apiKey" c.apiKey ++
    optionalText "apiType" c.apiType ++
    match c.parameters with
    | some entries => [("defaultGenerationParameters", .mapping entries)]
    | none => []

def Endpoint.fields (e : Endpoint) : Dict Value :=
  [("url", .text e.url), ("httpMethod", .text e.httpMethod), ("apiHeaders", .mapping e.apiHeaders),
    ("sensitiveHeaders", .mapping e.sensitiveHeaders), ("data", .mapping e.data)]

def Tool.fields (t : Tool) : Dict Value :=
  t.slots.fields ++
    (match t.site with
      | .remote endpoint => endpoint.fields
      | _ => []) ++
    [("requiresConfirmation", .bool t.requiresConfirmation)]

/-- The fields of a node beyond its inputs and outputs. -/
def NodeRole.fields : NodeRole → Dict Value
  | .start => []
  | .finish branchName => optionalText "branchName" branchName
  | .llm llmConfig promptTemplate =>
    [("llmConfig", .component llmConfig), ("promptTemplate", .text promptTemplate)]
  | .tool c => [("tool", .component c)]
  | .agent c => [("agent", .component c)]
  | .flow c => [("subflow", .component c)]
  | .branching mapping => [("mapping", .mapping (Dict.mapValues .string mapping))]

/-- The fields of a kind by internal name. -/
def Kind.fields : Kind → Dict Value
  | .modelConfig c => c.fields
  | .tool t => t.fields
  | .agent llmConfig systemPrompt tools humanInTheLoop slots =>
    slots.fields ++
      [("llmConfig", .component llmConfig), ("systemPrompt", .text systemPrompt),
        ("tools", .componentList tools), ("humanInTheLoop", .bool humanInTheLoop)]
  | .swarm firstAgent relationships =>
    [("firstAgent", .component firstAgent),
      ("relationships", .list (relationships.map fun p => .componentList [p.1, p.2]))]
  | .managerWorkers groupManager workers =>
    [("groupManager", .component groupManager), ("workers", .componentList workers)]
  | .flow startNode nodes controlFlow dataFlow slots =>
    slots.fields ++
      [("startNode", .component startNode), ("nodes", .componentList nodes),
        ("controlFlowConnections", .componentList controlFlow),
        ("dataFlowConnections", .componentList dataFlow)]
  | .node role slots => slots.fields ++ role.fields
  | .controlFlowEdge fromNode fromBranch toNode =>
    [("fromNode", .component fromNode)] ++ optionalText "fromBranch" fromBranch ++
      [("toNode", .component toNode)]
  | .dataFlowEdge sourceNode sourceOutput destinationNode destinationInput =>
    [("sourceNode", .component sourceNode), ("sourceOutput", .text sourceOutput),
      ("destinationNode", .component destinationNode),
      ("destinationInput", .text destinationInput)]
  | .extension _ fields => fields

/-- The components held by fields, in order. -/
def heldComponents (fields : Dict Value) : List Component := Value.componentsOfEntries fields

/-- The components that a component holds directly, in the order of its fields. -/
def Component.children (c : Component) : List Component := heldComponents c.kind.fields

mutual
/-- The number of components in a component, itself included, each counted at every place where
it stands. -/
def Component.weight : Component → Nat
  | .mk _ _ _ _ _ kind => kind.weight + 1
/-- The number of components in a kind. -/
def Kind.weight : Kind → Nat
  | .modelConfig _ => 0
  | .tool _ => 0
  | .agent llmConfig _ tools _ _ => llmConfig.weight + weightOfList tools
  | .swarm firstAgent relationships => firstAgent.weight + weightOfPairs relationships
  | .managerWorkers groupManager workers => groupManager.weight + weightOfList workers
  | .flow startNode nodes controlFlow dataFlow _ =>
    startNode.weight + weightOfList nodes + weightOfList controlFlow + weightOfList dataFlow
  | .node role _ => role.weight
  | .controlFlowEdge fromNode _ toNode => fromNode.weight + toNode.weight
  | .dataFlowEdge sourceNode _ destinationNode _ => sourceNode.weight + destinationNode.weight
  | .extension _ fields => weightOfFields fields
/-- The number of components in the role of a node. -/
def NodeRole.weight : NodeRole → Nat
  | .start => 0
  | .finish _ => 0
  | .llm llmConfig _ => llmConfig.weight
  | .tool c => c.weight
  | .agent c => c.weight
  | .flow c => c.weight
  | .branching _ => 0
/-- The number of components in a value. -/
def Value.weight : Value → Nat
  | .data _ => 0
  | .component c => c.weight
  | .property _ => 0
  | .list items => weightOfValues items
  | .map entries => weightOfFields entries
/-- The number of components in a list of components. -/
def weightOfList : List Component → Nat
  | [] => 0
  | c :: rest => c.weight + weightOfList rest
/-- The number of components in a list of pairs. -/
def weightOfPairs : List (Component × Component) → Nat
  | [] => 0
  | (a, b) :: rest => a.weight + b.weight + weightOfPairs rest
/-- The number of components in a list of values. -/
def weightOfValues : List Value → Nat
  | [] => 0
  | v :: rest => v.weight + weightOfValues rest
/-- The number of components in fields. -/
def weightOfFields : List (String × Value) → Nat
  | [] => 0
  | (_, v) :: rest => v.weight + weightOfFields rest
end

theorem weightOfList_append (xs ys : List Component) :
    weightOfList (xs ++ ys) = weightOfList xs + weightOfList ys := by
  induction xs with
  | nil => simp [weightOfList]
  | cons c rest ih => simp [weightOfList, ih, Nat.add_assoc]

mutual
theorem Value.weight_components (v : Value) : weightOfList v.components = v.weight := by
  cases v with
  | data t => simp [Value.components, Value.weight, weightOfList]
  | component c => simp [Value.components, Value.weight, weightOfList]
  | property p => simp [Value.components, Value.weight, weightOfList]
  | list items => simp [Value.components, Value.weight, Value.weight_componentsOfList items]
  | map entries => simp [Value.components, Value.weight, Value.weight_componentsOfEntries entries]
theorem Value.weight_componentsOfList (vs : List Value) :
    weightOfList (Value.componentsOfList vs) = weightOfValues vs := by
  match vs with
  | [] => simp [Value.componentsOfList, weightOfValues, weightOfList]
  | v :: rest =>
    simp [Value.componentsOfList, weightOfValues, weightOfList_append, Value.weight_components v,
      Value.weight_componentsOfList rest]
theorem Value.weight_componentsOfEntries (fields : List (String × Value)) :
    weightOfList (Value.componentsOfEntries fields) = weightOfFields fields := by
  match fields with
  | [] => simp [Value.componentsOfEntries, weightOfFields, weightOfList]
  | (_, v) :: rest =>
    simp [Value.componentsOfEntries, weightOfFields, weightOfList_append,
      Value.weight_components v, Value.weight_componentsOfEntries rest]
end

theorem weightOfFields_append (xs ys : Dict Value) :
    weightOfFields (xs ++ ys) = weightOfFields xs + weightOfFields ys := by
  induction xs with
  | nil => simp [weightOfFields]
  | cons p rest ih => obtain ⟨k, v⟩ := p; simp [weightOfFields, ih, Nat.add_assoc]

@[simp] theorem weightOfValues_components (cs : List Component) :
    weightOfValues (cs.map .component) = weightOfList cs := by
  induction cs with
  | nil => simp [weightOfValues, weightOfList]
  | cons c rest ih => simp [weightOfValues, weightOfList, Value.weight, ih]

@[simp] theorem weightOfValues_properties (ps : List Property) :
    weightOfValues (ps.map .property) = 0 := by
  induction ps with
  | nil => simp [weightOfValues]
  | cons p rest ih => simp [weightOfValues, Value.weight, ih]

@[simp] theorem weightOfFields_optionalText (field : String) (s : Option String) :
    weightOfFields (optionalText field s) = 0 := by
  cases s <;> simp [optionalText, weightOfFields, Value.text, Value.weight]

@[simp] theorem weightOfFields_slots (s : Slots) : weightOfFields s.fields = 0 := by
  simp [Slots.fields, weightOfFields, Value.propertyList, Value.weight]

theorem weightOfValues_pairs (ps : List (Component × Component)) :
    weightOfValues (ps.map fun p => Value.componentList [p.1, p.2]) = weightOfPairs ps := by
  induction ps with
  | nil => simp [weightOfValues, weightOfPairs]
  | cons p rest ih =>
    obtain ⟨a, b⟩ := p
    rw [List.map_cons, weightOfValues, weightOfPairs, ih]
    simp [Value.componentList, Value.weight, weightOfValues]

theorem Kind.weight_fields (k : Kind) : weightOfFields k.fields = k.weight := by
  cases k with
  | modelConfig c =>
    cases h : c.parameters <;>
      simp [Kind.fields, ModelConfig.fields, h, weightOfFields_append, weightOfFields, Kind.weight,
        Value.text, Value.mapping, Value.weight]
  | tool t =>
    cases h : t.site <;>
      simp [Kind.fields, Tool.fields, h, Endpoint.fields, weightOfFields_append, weightOfFields,
        Kind.weight, Value.text, Value.bool, Value.mapping, Value.weight]
  | agent l p ts h s =>
    simp [Kind.fields, weightOfFields_append, weightOfFields, Kind.weight, Value.text, Value.bool,
      Value.componentList, Value.weight]
  | swarm f rs =>
    simp [Kind.fields, weightOfFields, Kind.weight, Value.weight, weightOfValues_pairs]
  | managerWorkers m ws =>
    simp [Kind.fields, weightOfFields, Kind.weight, Value.componentList, Value.weight]
  | flow s ns cs ds sl =>
    simp [Kind.fields, weightOfFields_append, weightOfFields, Kind.weight, Value.componentList,
      Value.weight, Nat.add_assoc]
  | node role s =>
    cases role <;>
      simp [Kind.fields, NodeRole.fields, weightOfFields_append, weightOfFields, Kind.weight,
        NodeRole.weight, Value.text, Value.mapping, Value.weight]
  | controlFlowEdge f b t =>
    simp [Kind.fields, weightOfFields_append, weightOfFields, Kind.weight, Value.weight]
  | dataFlowEdge s o d i =>
    simp [Kind.fields, weightOfFields, Kind.weight, Value.text, Value.weight]
  | extension t fs => simp [Kind.fields, Kind.weight]

theorem Component.weight_children (c : Component) : weightOfList c.children < c.weight := by
  cases c with
  | mk h i n d m k =>
    simp [Component.children, heldComponents, Component.kind, Value.weight_componentsOfEntries,
      Kind.weight_fields, Component.weight]

theorem Component.weight_pos (c : Component) : 0 < c.weight := by
  cases c with
  | mk h i n d m k => simp [Component.weight]

end AgentGraph
