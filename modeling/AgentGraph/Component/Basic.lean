import AgentGraph.Property
/-!
# Components

A component is a node of the graph that a document describes: an identity, a name, optional text
and metadata, and a kind. A component holds the components it uses, so the graph has no cycles. A
component that has several users is one object: `handle` names the object, two components with
equal handles are the same object, and equality of contents ignores it.

The kinds are language-model configurations, tools, agents and groups of agents, flows with their
nodes and edges, and extensions, whose fields are a bag of values.
-/
namespace AgentGraph

/-- The provider that a language-model configuration talks to. -/
inductive Provider where
  | openAi
  | openAiCompatible
  | vllm
  | ollama
  deriving DecidableEq

namespace Provider

/-- All providers. -/
def all : List Provider := [openAi, openAiCompatible, vllm, ollama]

/-- The component type of the provider's configurations. -/
def componentType : Provider → String
  | openAi => "OpenAiConfig"
  | openAiCompatible => "OpenAiCompatibleConfig"
  | vllm => "VllmConfig"
  | ollama => "OllamaConfig"

def ofComponentType? (type : String) : Option Provider := all.find? (·.componentType == type)

/-- The hosted provider has a fixed address; every other one needs a url. -/
def requiresUrl : Provider → Bool
  | openAi => false
  | _ => true

end Provider

/-- Connection details of one model. -/
structure ModelConfig where
  provider : Provider
  modelId : String
  url : Option String
  apiKey : Option String
  apiType : Option String
  parameters : Option (Dict Tree)

/-- Where a remote tool is called. -/
structure Endpoint where
  url : String
  httpMethod : String
  apiHeaders : Dict Tree
  sensitiveHeaders : Dict Tree
  data : Dict Tree

/-- Where a tool runs. -/
inductive ToolSite where
  | server
  | client
  | remote (endpoint : Endpoint)

/-- A tool with its inputs and outputs. -/
structure Tool where
  site : ToolSite
  slots : Slots
  requiresConfirmation : Bool

def Tool.componentType (t : Tool) : String :=
  match t.site with
  | .server => "ServerTool"
  | .client => "ClientTool"
  | .remote _ => "RemoteTool"

mutual
/-- A node of the graph. -/
inductive Component where
  | mk (handle : Nat) (id name : String) (description : Option String)
      (metadata : List (String × Tree)) (kind : Kind)
/-- What a component is. -/
inductive Kind where
  | modelConfig (config : ModelConfig)
  | tool (tool : Tool)
  | agent (llmConfig : Component) (systemPrompt : String) (tools : List Component)
      (humanInTheLoop : Bool) (slots : Slots)
  | swarm (firstAgent : Component) (relationships : List (Component × Component))
  | managerWorkers (groupManager : Component) (workers : List Component)
  | flow (startNode : Component) (nodes controlFlow dataFlow : List Component) (slots : Slots)
  | node (role : NodeRole) (slots : Slots)
  | controlFlowEdge (fromNode : Component) (fromBranch : Option String) (toNode : Component)
  | dataFlowEdge (sourceNode : Component) (sourceOutput : String) (destinationNode : Component)
      (destinationInput : String)
  | extension (type : String) (fields : List (String × Value))
/-- What a node of a flow does when control reaches it. -/
inductive NodeRole where
  | start
  | finish (branchName : Option String)
  | llm (llmConfig : Component) (promptTemplate : String)
  | tool (tool : Component)
  | agent (agent : Component)
  | flow (subflow : Component)
  | branching (mapping : List (String × String))
/-- A field value: opaque data, a component, a property, or a list or mapping of values. -/
inductive Value where
  | data (tree : Tree)
  | component (component : Component)
  | property (property : Property)
  | list (items : List Value)
  | map (entries : List (String × Value))
end

def NodeRole.componentType : NodeRole → String
  | start => "StartNode"
  | finish _ => "EndNode"
  | llm _ _ => "LlmNode"
  | tool _ => "ToolNode"
  | agent _ => "AgentNode"
  | flow _ => "FlowNode"
  | branching _ => "BranchingNode"

namespace Kind

def componentType : Kind → String
  | modelConfig c => c.provider.componentType
  | tool t => t.componentType
  | agent .. => "Agent"
  | swarm .. => "Swarm"
  | managerWorkers .. => "ManagerWorkers"
  | flow .. => "Flow"
  | node role _ => role.componentType
  | controlFlowEdge .. => "ControlFlowEdge"
  | dataFlowEdge .. => "DataFlowEdge"
  | extension type _ => type

/-- The inputs and outputs of kinds that have them. -/
def slots? : Kind → Option Slots
  | tool t => some t.slots
  | agent _ _ _ _ slots => some slots
  | flow _ _ _ _ slots => some slots
  | node _ slots => some slots
  | _ => none

end Kind

namespace Component

/-- The object that the component is. -/
def handle : Component → Nat
  | mk handle _ _ _ _ _ => handle

/-- The identity of the component in documents. -/
def id : Component → String
  | mk _ id _ _ _ _ => id

def name : Component → String
  | mk _ _ name _ _ _ => name

def description : Component → Option String
  | mk _ _ _ description _ _ => description

def metadata : Component → Dict Tree
  | mk _ _ _ _ metadata _ => metadata

def kind : Component → Kind
  | mk _ _ _ _ _ kind => kind

def componentType (c : Component) : String := c.kind.componentType

def inputs (c : Component) : List Property :=
  match c.kind.slots? with
  | some slots => slots.inputs
  | none => []

def outputs (c : Component) : List Property :=
  match c.kind.slots? with
  | some slots => slots.outputs
  | none => []

/-- Whether the component is a language-model configuration. -/
def isModelConfig (c : Component) : Bool := c.kind matches .modelConfig _

def isTool (c : Component) : Bool := c.kind matches .tool _

/-- Whether the component is a single agent. -/
def isAgent (c : Component) : Bool := c.kind matches .agent ..

/-- Whether the component can answer a conversation: an agent or a group of agents. -/
def isAgentic (c : Component) : Bool :=
  c.kind matches .agent .. | .swarm .. | .managerWorkers ..

def isFlow (c : Component) : Bool := c.kind matches .flow ..

/-- Whether the component is a node of a flow. -/
def isNode (c : Component) : Bool := c.kind matches .node ..

/-- Whether the component is the node a flow starts at. -/
def isStartNode (c : Component) : Bool := c.kind matches .node .start _

/-- Whether the component is an edge of control flow. -/
def isControlFlowEdge (c : Component) : Bool := c.kind matches .controlFlowEdge ..

/-- Whether the component is an edge of data flow. -/
def isDataFlowEdge (c : Component) : Bool := c.kind matches .dataFlowEdge ..

/-- Whether two components are the same object. -/
def isSameObject (c d : Component) : Bool := c.handle == d.handle

end Component
end AgentGraph
