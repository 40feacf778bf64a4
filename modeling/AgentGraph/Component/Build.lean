import AgentGraph.Component.Fields
/-!
# Building kinds

Every kind that refers to other components checks that these are of the kinds it expects. A group
needs a worker, a flow lists its start node among its nodes, and an edge of data flow joins an
output to an input to which it can be cast.
-/
namespace AgentGraph

/-- Causes for which a kind cannot be built. -/
inductive ComponentError where
  | property (cause : PropertyError)
  | unexpectedKind (kind field expected found id : String)
  | missingEdgeProperty (node direction title : String)
  | incompatibleEdgeTypes (sourceNode sourceOutput destinationNode destinationInput : String)
  | invalidField (kind field reason : String)
  deriving DecidableEq

def ComponentError.message : ComponentError → String
  | property cause => cause.message
  | unexpectedKind kind field expected found id =>
    kind ++ "." ++ field ++ " expects " ++ expected ++ ", got " ++ found ++ " (" ++ id ++ ")"
  | missingEdgeProperty node direction title =>
    "node " ++ node ++ " has no " ++ direction ++ " titled " ++ Text.quote title
  | incompatibleEdgeTypes sourceNode sourceOutput destinationNode destinationInput =>
    "output " ++ Text.quote sourceOutput ++ " of " ++ sourceNode ++ " cannot be cast to input " ++
      Text.quote destinationInput ++ " of " ++ destinationNode
  | invalidField kind field reason => kind ++ "." ++ field ++ ": " ++ reason

/-- What a field expects of the component it refers to. -/
structure Expectation where
  kind : String
  field : String
  expected : String
  holds : Component → Bool

namespace Expectation

/-- Checks a component and names its type if it is not what was expected. -/
def check (e : Expectation) (c : Component) : Except ComponentError Unit :=
  if e.holds c then .ok ()
  else .error (.unexpectedKind e.kind e.field e.expected c.componentType c.id)

def checkAll (e : Expectation) : List Component → Except ComponentError Unit
  | [] => .ok ()
  | c :: rest => do
    e.check c
    e.checkAll rest

def checkPairs (e : Expectation) : List (Component × Component) → Except ComponentError Unit
  | [] => .ok ()
  | (a, b) :: rest => do
    e.check a
    e.check b
    e.checkPairs rest

/-- The configuration of an agent. -/
def agentConfig : Expectation := ⟨"Agent", "llmConfig", "an LLM config", Component.isModelConfig⟩

/-- The tools of an agent. -/
def agentTools : Expectation := ⟨"Agent", "tools", "a tool", Component.isTool⟩

/-- The agent that a swarm starts with. -/
def swarmFirst : Expectation := ⟨"Swarm", "firstAgent", "an agent", Component.isAgentic⟩

/-- The members of a swarm. -/
def swarmMember : Expectation := ⟨"Swarm", "relationships", "an agent", Component.isAgentic⟩

/-- The manager of a group. -/
def manager : Expectation := ⟨"ManagerWorkers", "groupManager", "an agent", Component.isAgent⟩

/-- The workers of a group. -/
def worker : Expectation := ⟨"ManagerWorkers", "workers", "an agent", Component.isAgentic⟩

/-- The node that a flow starts at. -/
def flowStart : Expectation := ⟨"Flow", "startNode", "a start node", Component.isStartNode⟩

/-- The nodes of a flow. -/
def flowNode : Expectation := ⟨"Flow", "nodes", "a node", Component.isNode⟩

/-- The control edges of a flow. -/
def flowControl : Expectation :=
  ⟨"Flow", "controlFlowConnections", "a control flow edge", Component.isControlFlowEdge⟩

/-- The data edges of a flow. -/
def flowData : Expectation :=
  ⟨"Flow", "dataFlowConnections", "a data flow edge", Component.isDataFlowEdge⟩

/-- The configuration of a node that asks a model. -/
def nodeConfig : Expectation := ⟨"LlmNode", "llmConfig", "an LLM config", Component.isModelConfig⟩

/-- The tool of a node that runs one. -/
def nodeTool : Expectation := ⟨"ToolNode", "tool", "a tool", Component.isTool⟩

/-- The agent of a node that hands over to one. -/
def nodeAgent : Expectation := ⟨"AgentNode", "agent", "an agent", Component.isAgentic⟩

/-- The flow of a node that runs one. -/
def nodeFlow : Expectation := ⟨"FlowNode", "subflow", "a flow", Component.isFlow⟩

/-- The node that control leaves. -/
def controlSource : Expectation := ⟨"ControlFlowEdge", "fromNode", "a node", Component.isNode⟩

/-- The node that control enters. -/
def controlTarget : Expectation := ⟨"ControlFlowEdge", "toNode", "a node", Component.isNode⟩

/-- The node that data leaves. -/
def dataSource : Expectation := ⟨"DataFlowEdge", "sourceNode", "a node", Component.isNode⟩

/-- The node that data enters. -/
def dataTarget : Expectation := ⟨"DataFlowEdge", "destinationNode", "a node", Component.isNode⟩

end Expectation

namespace Kind

/-- A swarm of peers, with the directed pairs along which they hand over. -/
def buildSwarm (first : Component) (pairs : List (Component × Component)) :
    Except ComponentError Kind := do
  Expectation.swarmFirst.check first
  Expectation.swarmMember.checkPairs pairs
  return .swarm first pairs

/-- A manager with at least one worker. -/
def buildManagerWorkers (manager : Component) (workers : List Component) :
    Except ComponentError Kind := do
  Expectation.manager.check manager
  if workers.isEmpty then
    throw (.invalidField "ManagerWorkers" "workers" "at least one worker is required")
  Expectation.worker.checkAll workers
  return .managerWorkers manager workers

/-- Checks the start node and the nodes of a flow. -/
def checkFlowNodes (start : Component) (nodes : List Component) : Except ComponentError Unit := do
  Expectation.flowStart.check start
  Expectation.flowNode.checkAll nodes
  if !nodes.any (·.id == start.id) then
    throw (.invalidField "Flow" "nodes" ("start node " ++ start.id ++ " is not listed"))

def buildLlmNode (config : Component) (prompt : String) (slots : Slots) :
    Except ComponentError Kind := do
  Expectation.nodeConfig.check config
  return .node (.llm config prompt) slots

def buildToolNode (t : Component) (slots : Slots) : Except ComponentError Kind := do
  Expectation.nodeTool.check t
  return .node (.tool t) slots

/-- A node that hands over to an agent. -/
def buildAgentNode (a : Component) (slots : Slots) : Except ComponentError Kind := do
  Expectation.nodeAgent.check a
  return .node (.agent a) slots

def buildFlowNode (f : Component) (slots : Slots) : Except ComponentError Kind := do
  Expectation.nodeFlow.check f
  return .node (.flow f) slots

/-- An edge of control flow, perhaps taken only through a branch. -/
def buildControlFlowEdge (source target : Component) (branch : Option String) :
    Except ComponentError Kind := do
  Expectation.controlSource.check source
  Expectation.controlTarget.check target
  return .controlFlowEdge source branch target

/-- An edge of data flow. Both titles exist on their nodes, and the output can be cast to the
input. -/
def buildDataFlowEdge (source : Component) (output : String) (target : Component)
    (input : String) : Except ComponentError Kind := do
  Expectation.dataSource.check source
  Expectation.dataTarget.check target
  match source.outputs.find? (·.title == output) with
  | none => throw (.missingEdgeProperty source.id "output" output)
  | some given =>
    match target.inputs.find? (·.title == input) with
    | none => throw (.missingEdgeProperty target.id "input" input)
    | some wanted =>
      if given.castable wanted then return .dataFlowEdge source output target input
      else throw (.incompatibleEdgeTypes source.id output target.id input)

end Kind
end AgentGraph
