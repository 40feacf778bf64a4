import AgentGraph.Proofs.Load.Built
import AgentGraph.Proofs.Load.Makes
import AgentGraph.Proofs.Schema.Nodes
/-!
# Well-formed components

What the kind of a component promises: the components that it uses are of the kinds it expects, a flow
lists the node it starts at, an edge of data joins an output to an input to which it can be cast, and
the titles of inputs and outputs are unique and valid. The constructors of the kinds leave nothing else
through.
-/
namespace AgentGraph

/-- A property has a title, and every title in its schema is valid. -/
structure Property.WellTitled (p : Property) : Prop where
  titled : p.schema.title ≠ none
  valid : ∀ n ∈ p.schema.nodes, n.WellTitled

/-- Each list has unique titles, and the titles in the schemas are valid. -/
structure Slots.WellFormed (s : Slots) : Prop where
  inputs : (s.inputs.map Property.title).Nodup
  outputs : (s.outputs.map Property.title).Nodup
  titles : ∀ p ∈ s.inputs ++ s.outputs, p.WellTitled

/-- A node uses a component of the kind it expects. -/
def NodeRole.WellFormed : NodeRole → Prop
  | .llm config _ => config.isModelConfig = true
  | .tool t => t.isTool = true
  | .agent a => a.isAgentic = true
  | .flow f => f.isFlow = true
  | .start | .finish _ | .branching _ => True

/-- A flow starts at one of its nodes and lists nodes and edges of the right sort. -/
structure Kind.FlowWellFormed (start : Component) (nodes control data : List Component) : Prop where
  isStart : start.isStartNode = true
  listed : ∃ n ∈ nodes, n.id = start.id
  areNodes : ∀ n ∈ nodes, n.isNode = true
  areControl : ∀ e ∈ control, e.isControlFlowEdge = true
  areData : ∀ e ∈ data, e.isDataFlowEdge = true

/-- An edge of data joins an output of a node to an input of a node to which it can be cast. -/
structure Kind.DataEdgeWellFormed (source : Component) (output : String) (target : Component)
    (input : String) : Prop where
  leaves : source.isNode = true
  enters : target.isNode = true
  joins : ∃ given ∈ source.outputs, ∃ wanted ∈ target.inputs,
    given.title = output ∧ wanted.title = input ∧ given.castable wanted = true

/-- A kind keeps its promises. An extension promises nothing. -/
def Kind.WellFormed : Kind → Prop
  | .modelConfig c => c.provider = .openAi ∨ c.url ≠ none
  | .tool t => t.slots.WellFormed
  | .agent config _ tools _ slots =>
    config.isModelConfig = true ∧ (∀ t ∈ tools, t.isTool = true) ∧ slots.WellFormed
  | .swarm first pairs =>
    first.isAgentic = true ∧ ∀ p ∈ pairs, p.1.isAgentic = true ∧ p.2.isAgentic = true
  | .managerWorkers manager workers =>
    manager.isAgent = true ∧ workers ≠ [] ∧ ∀ w ∈ workers, w.isAgentic = true
  | .flow start nodes control data slots =>
    FlowWellFormed start nodes control data ∧ slots.WellFormed
  | .node role slots => role.WellFormed ∧ slots.WellFormed
  | .controlFlowEdge source _ target => source.isNode = true ∧ target.isNode = true
  | .dataFlowEdge source output target input => DataEdgeWellFormed source output target input
  | .extension _ _ => True

def Component.WellFormed (c : Component) : Prop := c.kind.WellFormed

theorem Property.Sound.wellTitled {p : Property} (h : p.Sound) : p.WellTitled :=
  ⟨h.titled, fun n hn => (h.nodes n hn).titled⟩

theorem Slots.wellFormed_of {inputs outputs : List Property} {s : Slots}
    (h : Slots.of inputs outputs = .ok s) (hsound : ∀ p ∈ inputs ++ outputs, p.Sound) :
    s.WellFormed := by
  obtain ⟨_, hinputs, h⟩ := bind_ok h
  obtain ⟨_, houtputs, h⟩ := bind_ok h
  obtain rfl := Except.ok.inj h
  exact ⟨(Property.checkTitlesFrom_ok hinputs).1, (Property.checkTitlesFrom_ok houtputs).1,
    fun p hp => (hsound p hp).wellTitled⟩

namespace Kind
variable {a b : Component} {cs nodes control data : List Component}
  {ps : List (Component × Component)} {k : Kind} {slots : Slots} {x y : String}

theorem wellFormed_buildSwarm (h : buildSwarm a ps = .ok k) : k.WellFormed := by
  obtain rfl := buildSwarm_ok h
  obtain ⟨_, hfirst, h⟩ := bind_ok h
  obtain ⟨_, hpairs, -⟩ := bind_ok h
  have hmembers := Expectation.checkAll_ok_iff.mp (Expectation.checkPairs_ok_iff.mp hpairs)
  refine ⟨Expectation.check_ok_iff.mp hfirst, fun p hp => ⟨hmembers p.1 ?_, hmembers p.2 ?_⟩⟩
  all_goals exact List.mem_flatMap.mpr ⟨p, hp, by simp⟩

theorem wellFormed_buildManagerWorkers (h : buildManagerWorkers a cs = .ok k) :
    k.WellFormed := by
  obtain rfl := buildManagerWorkers_ok h
  obtain ⟨_, hmanager, h⟩ := bind_ok h
  split at h
  · cases h
  · rename_i hempty
    obtain ⟨_, hworkers, -⟩ := bind_ok h
    exact ⟨Expectation.check_ok_iff.mp hmanager, by simpa using hempty,
      Expectation.checkAll_ok_iff.mp hworkers⟩

theorem wellFormed_checkFlowNodes {u : Unit} (h : checkFlowNodes a nodes = .ok u)
    (hcontrol : ∀ e ∈ control, e.isControlFlowEdge = true)
    (hdata : ∀ e ∈ data, e.isDataFlowEdge = true) : FlowWellFormed a nodes control data := by
  obtain ⟨_, hstart, h⟩ := bind_ok h
  obtain ⟨_, hnodes, h⟩ := bind_ok h
  refine ⟨Expectation.check_ok_iff.mp hstart, ?_, Expectation.checkAll_ok_iff.mp hnodes, hcontrol,
    hdata⟩
  split at h
  · cases h
  · rename_i hlisted
    simpa using hlisted

theorem wellFormed_buildLlmNode (h : buildLlmNode a x slots = .ok k) (hslots : slots.WellFormed) :
    k.WellFormed := by
  obtain rfl := buildLlmNode_ok h
  obtain ⟨_, hcheck, -⟩ := bind_ok h
  exact ⟨Expectation.check_ok_iff.mp hcheck, hslots⟩

theorem wellFormed_buildToolNode (h : buildToolNode a slots = .ok k) (hslots : slots.WellFormed) :
    k.WellFormed := by
  obtain rfl := buildToolNode_ok h
  obtain ⟨_, hcheck, -⟩ := bind_ok h
  exact ⟨Expectation.check_ok_iff.mp hcheck, hslots⟩

theorem wellFormed_buildAgentNode (h : buildAgentNode a slots = .ok k)
    (hslots : slots.WellFormed) : k.WellFormed := by
  obtain rfl := buildAgentNode_ok h
  obtain ⟨_, hcheck, -⟩ := bind_ok h
  exact ⟨Expectation.check_ok_iff.mp hcheck, hslots⟩

theorem wellFormed_buildFlowNode (h : buildFlowNode a slots = .ok k) (hslots : slots.WellFormed) :
    k.WellFormed := by
  obtain rfl := buildFlowNode_ok h
  obtain ⟨_, hcheck, -⟩ := bind_ok h
  exact ⟨Expectation.check_ok_iff.mp hcheck, hslots⟩

theorem wellFormed_buildDataFlowEdge (h : buildDataFlowEdge a x b y = .ok k) : k.WellFormed := by
  obtain rfl := buildDataFlowEdge_ok h
  obtain ⟨_, hsource, h⟩ := bind_ok h
  obtain ⟨_, htarget, h⟩ := bind_ok h
  split at h
  · cases h
  · rename_i given hgiven
    split at h
    · cases h
    · rename_i wanted hwanted
      split at h
      · rename_i hcast
        have hout := List.find?_some hgiven
        have hin := List.find?_some hwanted
        exact ⟨Expectation.check_ok_iff.mp hsource, Expectation.check_ok_iff.mp htarget, given,
          List.mem_of_find?_eq_some hgiven, wanted, List.mem_of_find?_eq_some hwanted,
          by simpa using hout, by simpa using hin, hcast⟩
      · cases h

end Kind
end AgentGraph
