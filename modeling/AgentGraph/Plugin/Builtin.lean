import AgentGraph.Plugin
/-!
# The builtin kinds

How the kinds of the builtin catalog are read from records: the fields of a record are read, and
what they refer to is checked, in a fixed order for each kind.
-/
namespace AgentGraph.Builtin

/-- The types of tools. -/
def toolTypes : List String := ["ServerTool", "ClientTool", "RemoteTool"]

/-- The types of flow nodes. -/
def nodeTypes : List String :=
  ["StartNode", "EndNode", "LlmNode", "ToolNode", "AgentNode", "FlowNode", "BranchingNode"]

/-- Every type of the builtin catalog. -/
def types : List String :=
  Provider.all.map Provider.componentType ++ toolTypes ++
    ["Agent", "Swarm", "ManagerWorkers", "Flow"] ++ nodeTypes ++
    ["ControlFlowEdge", "DataFlowEdge"]

/-- A fault of a kind as a failure of loading. -/
def checked {α : Type} (result : Except ComponentError α) : LoadM α :=
  match result with
  | .ok a => return a
  | .error e => throw (.component e)

def readModelConfig (provider : Provider) (r : Record) : Except LoadError Kind := do
  let url ← if provider.requiresUrl then some <$> r.requiredText "url" else r.optionalText "url"
  let modelId ← r.requiredText "modelId"
  let apiKey ← r.optionalText "apiKey"
  let apiType ← r.optionalText "apiType"
  let parameters ← r.mapping? "defaultGenerationParameters"
  return .modelConfig { provider, modelId, url, apiKey, apiType, parameters }

/-- Reads where a remote tool is called. -/
def readEndpoint (r : Record) : Except LoadError Endpoint := do
  let url ← r.requiredText "url"
  let httpMethod ← r.optionalText "httpMethod"
  let apiHeaders ← r.mapping "apiHeaders"
  let sensitiveHeaders ← r.mapping "sensitiveHeaders"
  let data ← r.mapping "data"
  return { url, httpMethod := httpMethod.getD "GET", apiHeaders, sensitiveHeaders, data }

/-- Reads where a tool runs. -/
def readToolSite (r : Record) : Except LoadError ToolSite :=
  match r.componentType with
  | "ServerTool" => .ok .server
  | "ClientTool" => .ok .client
  | "RemoteTool" => return .remote (← readEndpoint r)
  | other => .error (.unknownComponentType other)

def readTool (r : Record) : Except LoadError Kind := do
  let site ← readToolSite r
  let slots ← r.slots
  let confirmation ← r.optionalBool "requiresConfirmation"
  return .tool { site, slots, requiresConfirmation := confirmation.getD false }

def readAgent (reader : Reader) (r : Record) : LoadM Kind := do
  let config ← reader.component r "llmConfig"
  let prompt ← r.requiredText "systemPrompt"
  checked (Expectation.agentConfig.check config)
  let tools ← reader.componentList r "tools"
  checked (Expectation.agentTools.checkAll tools)
  let slots ← r.slots
  let human ← r.optionalBool "humanInTheLoop"
  return .agent config prompt tools (human.getD true) slots

def readSwarm (reader : Reader) (r : Record) : LoadM Kind := do
  let first ← reader.component r "firstAgent"
  let pairs ← reader.componentPairs r "relationships"
  checked (Kind.buildSwarm first pairs)

def readManagerWorkers (reader : Reader) (r : Record) : LoadM Kind := do
  let manager ← reader.component r "groupManager"
  let workers ← reader.componentList r "workers"
  checked (Kind.buildManagerWorkers manager workers)

def readFlow (reader : Reader) (r : Record) : LoadM Kind := do
  let start ← reader.component r "startNode"
  let nodes ← reader.componentList r "nodes"
  checked (Kind.checkFlowNodes start nodes)
  let control ← reader.componentList r "controlFlowConnections"
  checked (Expectation.flowControl.checkAll control)
  let data ← reader.componentList r "dataFlowConnections"
  checked (Expectation.flowData.checkAll data)
  let slots ← r.slots
  return .flow start nodes control data slots

def readNode (reader : Reader) (r : Record) : LoadM Kind := do
  let slots ← r.slots
  match r.componentType with
  | "StartNode" => return .node .start slots
  | "EndNode" => return .node (.finish (← r.optionalText "branchName")) slots
  | "LlmNode" =>
    let config ← reader.component r "llmConfig"
    let prompt ← r.requiredText "promptTemplate"
    checked (Kind.buildLlmNode config prompt slots)
  | "ToolNode" => checked (Kind.buildToolNode (← reader.component r "tool") slots)
  | "AgentNode" => checked (Kind.buildAgentNode (← reader.component r "agent") slots)
  | "FlowNode" => checked (Kind.buildFlowNode (← reader.component r "subflow") slots)
  | "BranchingNode" => return .node (.branching (← r.textMapping "mapping")) slots
  | other => throw (.unknownComponentType other)

def readControlFlowEdge (reader : Reader) (r : Record) : LoadM Kind := do
  let source ← reader.component r "fromNode"
  let target ← reader.component r "toNode"
  checked (Expectation.controlSource.check source)
  checked (Expectation.controlTarget.check target)
  return .controlFlowEdge source (← r.optionalText "fromBranch") target

def readDataFlowEdge (reader : Reader) (r : Record) : LoadM Kind := do
  let source ← reader.component r "sourceNode"
  let output ← r.requiredText "sourceOutput"
  let target ← reader.component r "destinationNode"
  let input ← r.requiredText "destinationInput"
  checked (Kind.buildDataFlowEdge source output target input)

/-- Reads the kind of a record of a builtin type. -/
def read (reader : Reader) (r : Record) : LoadM Kind :=
  match Provider.ofComponentType? r.componentType with
  | some provider => readModelConfig provider r
  | none =>
    if toolTypes.contains r.componentType then readTool r
    else if nodeTypes.contains r.componentType then readNode reader r
    else
      match r.componentType with
      | "Agent" => readAgent reader r
      | "Swarm" => readSwarm reader r
      | "ManagerWorkers" => readManagerWorkers reader r
      | "Flow" => readFlow reader r
      | "ControlFlowEdge" => readControlFlowEdge reader r
      | "DataFlowEdge" => readDataFlowEdge reader r
      | other => throw (.unknownComponentType other)

/-- The fields of a builtin kind; extensions are refused. -/
def write (c : Component) : Except SaveError (Dict Value) :=
  match c.kind with
  | .extension type _ => .error (.unknownComponentType type)
  | kind => .ok kind.fields

end AgentGraph.Builtin

namespace AgentGraph.Plugin

def builtin : Plugin where
  name := "agentspec-builtin"
  version := Release.current.name
  types := Builtin.types
  write := fun _ c => Builtin.write c
  read := Builtin.read

end AgentGraph.Plugin
