import AgentGraph.Proofs.Load.Asking
/-!
# How the builtin kinds are read

Each builtin kind asks for what stands in the component fields of its type, in their order. The kind
that is read then is made of the answers and of the data of the record, and its checks were passed.
Conversely, whenever the questions are answered like that, the kind is read. All that is proved of the
readers of the catalog follows from this, without another look at their steps.
-/
namespace AgentGraph
open List (Forall₂)
open Load

namespace Kind
variable {a b : Component} {cs : List Component} {ps : List (Component × Component)} {k : Kind}
  {slots : Slots} {x y : String}

theorem buildSwarm_ok (h : buildSwarm a ps = .ok k) : k = .swarm a ps := by
  obtain ⟨_, -, h⟩ := bind_ok h
  obtain ⟨_, -, h⟩ := bind_ok h
  exact (Except.ok.inj h).symm

theorem buildManagerWorkers_ok (h : buildManagerWorkers a cs = .ok k) :
    k = .managerWorkers a cs := by
  obtain ⟨_, -, h⟩ := bind_ok h
  split at h
  · cases h
  · obtain ⟨_, -, h⟩ := bind_ok h
    exact (Except.ok.inj h).symm

theorem buildLlmNode_ok (h : buildLlmNode a x slots = .ok k) : k = .node (.llm a x) slots := by
  obtain ⟨_, -, h⟩ := bind_ok h
  exact (Except.ok.inj h).symm

theorem buildToolNode_ok (h : buildToolNode a slots = .ok k) : k = .node (.tool a) slots := by
  obtain ⟨_, -, h⟩ := bind_ok h
  exact (Except.ok.inj h).symm

theorem buildAgentNode_ok (h : buildAgentNode a slots = .ok k) : k = .node (.agent a) slots := by
  obtain ⟨_, -, h⟩ := bind_ok h
  exact (Except.ok.inj h).symm

theorem buildFlowNode_ok (h : buildFlowNode a slots = .ok k) : k = .node (.flow a) slots := by
  obtain ⟨_, -, h⟩ := bind_ok h
  exact (Except.ok.inj h).symm

theorem buildDataFlowEdge_ok (h : buildDataFlowEdge a x b y = .ok k) :
    k = .dataFlowEdge a x b y := by
  obtain ⟨_, -, h⟩ := bind_ok h
  obtain ⟨_, -, h⟩ := bind_ok h
  split at h
  · cases h
  · split at h
    · cases h
    · split at h
      · exact (Except.ok.inj h).symm
      · cases h

end Kind

namespace Builtin
variable {reader : Reader} {r : Record} {answers : List (List Component)} {k : Kind}

theorem readModelConfig_local (provider : Provider) :
    FailsLocally (readModelConfig provider r) := by
  have hrest (url : Option String) : FailsLocally (do
      let modelId ← r.requiredText "modelId"
      let apiKey ← r.optionalText "apiKey"
      let apiType ← r.optionalText "apiType"
      let parameters ← r.mapping? "defaultGenerationParameters"
      return Kind.modelConfig { provider, modelId, url, apiKey, apiType, parameters }) :=
    .bind Record.requiredText_local fun _ => .bind Record.optionalText_local fun _ =>
      .bind Record.optionalText_local fun _ => .bind Record.mapping?_local fun _ => .ok _
  unfold readModelConfig
  simp only
  split
  · exact .bind (.bind Record.requiredText_local fun _ => .ok _) hrest
  · exact .bind Record.optionalText_local hrest

theorem readEndpoint_local : FailsLocally (readEndpoint r) :=
  .bind Record.requiredText_local fun _ => .bind Record.optionalText_local fun _ =>
    .bind Record.mapping_local fun _ => .bind Record.mapping_local fun _ =>
      .bind Record.mapping_local fun _ => .ok _

theorem readToolSite_local : FailsLocally (readToolSite r) := by
  unfold readToolSite
  split
  · exact .ok _
  · exact .ok _
  · exact .bind readEndpoint_local fun _ => .ok _
  · exact .error trivial

theorem readTool_local : FailsLocally (readTool r) :=
  .bind readToolSite_local fun _ => .bind Record.slots_local fun _ =>
    .bind Record.optionalBool_local fun _ => .ok _

theorem componentFields_config {type : String} {provider : Provider}
    (h : Provider.ofComponentType? type = some provider) : componentFields type = [] := by
  have htype := List.find?_some h
  obtain rfl : provider.componentType = type := by simpa using htype
  cases provider <;> rfl

theorem componentFields_tool {type : String} (h : type ∈ toolTypes) :
    componentFields type = [] := by
  have hall : ∀ type ∈ toolTypes, componentFields type = [] := by decide
  exact hall type h

/-- A configuration is made of the data of a record. -/
structure MakesConfig (r : Record) (c : ModelConfig) : Prop where
  url : (if c.provider.requiresUrl then some <$> r.requiredText "url"
    else r.optionalText "url") = .ok c.url
  modelId : r.requiredText "modelId" = .ok c.modelId
  apiKey : r.optionalText "apiKey" = .ok c.apiKey
  apiType : r.optionalText "apiType" = .ok c.apiType
  parameters : r.mapping? "defaultGenerationParameters" = .ok c.parameters

/-- An endpoint is made of the data of a record. -/
structure MakesEndpoint (r : Record) (e : Endpoint) : Prop where
  url : r.requiredText "url" = .ok e.url
  httpMethod : ∃ method, r.optionalText "httpMethod" = .ok method ∧
    e.httpMethod = method.getD "GET"
  apiHeaders : r.mapping "apiHeaders" = .ok e.apiHeaders
  sensitiveHeaders : r.mapping "sensitiveHeaders" = .ok e.sensitiveHeaders
  data : r.mapping "data" = .ok e.data

/-- Where a tool runs is told by the type of its record. -/
inductive MakesSite (r : Record) : ToolSite → Prop
  | server (htype : r.componentType = "ServerTool") : MakesSite r .server
  | client (htype : r.componentType = "ClientTool") : MakesSite r .client
  | remote {e : Endpoint} (htype : r.componentType = "RemoteTool") (he : MakesEndpoint r e) :
    MakesSite r (.remote e)

/-- A tool is made of the data of a record. -/
structure MakesTool (r : Record) (t : Tool) : Prop where
  site : MakesSite r t.site
  slots : r.slots = .ok t.slots
  confirmation : ∃ asked, r.optionalBool "requiresConfirmation" = .ok asked ∧
    t.requiresConfirmation = asked.getD false

theorem readModelConfig_ok_iff {provider : Provider} : readModelConfig provider r = .ok k ↔
    ∃ c, c.provider = provider ∧ MakesConfig r c ∧ k = .modelConfig c := by
  constructor
  · intro h
    unfold readModelConfig at h
    simp only at h
    split at h
    all_goals
      rename_i hrequires
      obtain ⟨url, hurl, h⟩ := bind_ok h
      obtain ⟨modelId, hmodel, h⟩ := bind_ok h
      obtain ⟨apiKey, hkey, h⟩ := bind_ok h
      obtain ⟨apiType, htype, h⟩ := bind_ok h
      obtain ⟨parameters, hparameters, h⟩ := bind_ok h
      obtain rfl := Except.ok.inj h
      exact ⟨_, rfl, ⟨by simp [hrequires, hurl], hmodel, hkey, htype, hparameters⟩, rfl⟩
  · rintro ⟨c, rfl, h, rfl⟩
    have hurl := h.url
    unfold readModelConfig
    split at hurl
    all_goals
      rename_i hrequires
      simp only [hrequires]
      rw [hurl, h.modelId, h.apiKey, h.apiType, h.parameters]
      rfl

theorem readEndpoint_ok_iff {e : Endpoint} : readEndpoint r = .ok e ↔ MakesEndpoint r e := by
  constructor
  · intro h
    obtain ⟨url, hurl, h⟩ := bind_ok h
    obtain ⟨method, hmethod, h⟩ := bind_ok h
    obtain ⟨headers, hheaders, h⟩ := bind_ok h
    obtain ⟨sensitive, hsensitive, h⟩ := bind_ok h
    obtain ⟨data, hdata, h⟩ := bind_ok h
    obtain rfl := Except.ok.inj h
    exact ⟨hurl, ⟨method, hmethod, rfl⟩, hheaders, hsensitive, hdata⟩
  · intro h
    obtain ⟨method, hread, hmethod⟩ := h.httpMethod
    rw [readEndpoint, h.url, hread, h.apiHeaders, h.sensitiveHeaders, h.data]
    obtain ⟨url, httpMethod, headers, sensitive, data⟩ := e
    exact congrArg (fun m => Except.ok (Endpoint.mk url m headers sensitive data)) hmethod.symm

theorem readToolSite_ok_iff {site : ToolSite} : readToolSite r = .ok site ↔ MakesSite r site := by
  constructor
  · intro h
    unfold readToolSite at h
    split at h
    all_goals rename_i htype
    · obtain rfl := Except.ok.inj h
      exact .server htype
    · obtain rfl := Except.ok.inj h
      exact .client htype
    · obtain ⟨e, he, h⟩ := bind_ok h
      obtain rfl := Except.ok.inj h
      exact .remote htype (readEndpoint_ok_iff.mp he)
    · cases h
  · intro h
    unfold readToolSite
    cases h with
    | server htype =>
      rw [htype]
      rfl
    | client htype =>
      rw [htype]
      rfl
    | remote htype he =>
      rw [htype, readEndpoint_ok_iff.mpr he]
      rfl

theorem readTool_ok_iff : readTool r = .ok k ↔ ∃ t, MakesTool r t ∧ k = .tool t := by
  constructor
  · intro h
    obtain ⟨site, hsite, h⟩ := bind_ok h
    obtain ⟨slots, hslots, h⟩ := bind_ok h
    obtain ⟨asked, hasked, h⟩ := bind_ok h
    exact ⟨_, ⟨readToolSite_ok_iff.mp hsite, hslots, asked, hasked, rfl⟩, (Except.ok.inj h).symm⟩
  · rintro ⟨⟨site, slots, confirmation⟩, h, rfl⟩
    obtain ⟨asked, hasked, hconfirmation⟩ := h.confirmation
    rw [readTool, readToolSite_ok_iff.mpr h.site, h.slots, hasked]
    exact congrArg (fun c => Except.ok (Kind.tool ⟨site, slots, c⟩)) hconfirmation.symm

theorem MakesTool.type {t : Tool} (h : MakesTool r t) : t.componentType = r.componentType := by
  obtain ⟨site, slots, confirmation⟩ := t
  obtain ⟨hsite, -, -⟩ := h
  cases hsite <;> exact Eq.symm ‹_›

theorem MakesTool.type_mem {t : Tool} (h : MakesTool r t) : r.componentType ∈ toolTypes := by
  rw [← h.type]
  cases hsite : t.site <;> simp [Tool.componentType, hsite, toolTypes]

/-- The role of a node is made of the answers to the questions of a record. -/
inductive MakesRole (r : Record) (slots : Slots) : List (List Component) → NodeRole → Prop
  | start (htype : r.componentType = "StartNode") : MakesRole r slots [] .start
  | finish {branch : Option String} (htype : r.componentType = "EndNode")
    (hbranch : r.optionalText "branchName" = .ok branch) : MakesRole r slots [] (.finish branch)
  | llm {config : Component} {prompt : String} (htype : r.componentType = "LlmNode")
    (hprompt : r.requiredText "promptTemplate" = .ok prompt)
    (hbuild : Kind.buildLlmNode config prompt slots = .ok (.node (.llm config prompt) slots)) :
    MakesRole r slots [[config]] (.llm config prompt)
  | tool {t : Component} (htype : r.componentType = "ToolNode")
    (hbuild : Kind.buildToolNode t slots = .ok (.node (.tool t) slots)) :
    MakesRole r slots [[t]] (.tool t)
  | agent {a : Component} (htype : r.componentType = "AgentNode")
    (hbuild : Kind.buildAgentNode a slots = .ok (.node (.agent a) slots)) :
    MakesRole r slots [[a]] (.agent a)
  | flow {f : Component} (htype : r.componentType = "FlowNode")
    (hbuild : Kind.buildFlowNode f slots = .ok (.node (.flow f) slots)) :
    MakesRole r slots [[f]] (.flow f)
  | branching {mapping : Dict String} (htype : r.componentType = "BranchingNode")
    (hmapping : r.textMapping "mapping" = .ok mapping) : MakesRole r slots [] (.branching mapping)

/-- A kind is made of the answers to the questions of a record of a builtin type. -/
inductive Makes (r : Record) : List (List Component) → Kind → Prop
  | modelConfig {c : ModelConfig}
    (hprovider : Provider.ofComponentType? r.componentType = some c.provider)
    (hconfig : MakesConfig r c) : Makes r [] (.modelConfig c)
  | tool {t : Tool} (htool : MakesTool r t) : Makes r [] (.tool t)
  | agent {config : Component} {prompt : String} {tools : List Component} {slots : Slots}
    {human : Option Bool} (htype : r.componentType = "Agent")
    (hprompt : r.requiredText "systemPrompt" = .ok prompt)
    (hconfig : Expectation.agentConfig.check config = .ok ()) (hfits : r.FitsAt "tools")
    (htools : Expectation.agentTools.checkAll tools = .ok ()) (hslots : r.slots = .ok slots)
    (hhuman : r.optionalBool "humanInTheLoop" = .ok human) :
    Makes r [[config], tools] (.agent config prompt tools (human.getD true) slots)
  | swarm {first : Component} {pairs : List (Component × Component)}
    (htype : r.componentType = "Swarm") (hfits : r.FitsAt "relationships")
    (hbuild : Kind.buildSwarm first pairs = .ok (.swarm first pairs)) :
    Makes r [[first], Kind.heldPairs pairs] (.swarm first pairs)
  | managerWorkers {manager : Component} {workers : List Component}
    (htype : r.componentType = "ManagerWorkers") (hfits : r.FitsAt "workers")
    (hbuild : Kind.buildManagerWorkers manager workers = .ok (.managerWorkers manager workers)) :
    Makes r [[manager], workers] (.managerWorkers manager workers)
  | flow {start : Component} {nodes control data : List Component} {slots : Slots}
    (htype : r.componentType = "Flow") (hnodes : r.FitsAt "nodes")
    (hlisted : Kind.checkFlowNodes start nodes = .ok ())
    (hcontrol : r.FitsAt "controlFlowConnections")
    (hedges : Expectation.flowControl.checkAll control = .ok ())
    (hdata : r.FitsAt "dataFlowConnections")
    (hjoins : Expectation.flowData.checkAll data = .ok ()) (hslots : r.slots = .ok slots) :
    Makes r [[start], nodes, control, data] (.flow start nodes control data slots)
  | node {role : NodeRole} {slots : Slots} {answers : List (List Component)}
    (htype : r.componentType ∈ nodeTypes) (hslots : r.slots = .ok slots)
    (hrole : MakesRole r slots answers role) : Makes r answers (.node role slots)
  | controlFlowEdge {source target : Component} {branch : Option String}
    (htype : r.componentType = "ControlFlowEdge")
    (hsource : Expectation.controlSource.check source = .ok ())
    (htarget : Expectation.controlTarget.check target = .ok ())
    (hbranch : r.optionalText "fromBranch" = .ok branch) :
    Makes r [[source], [target]] (.controlFlowEdge source branch target)
  | dataFlowEdge {source target : Component} {output input : String}
    (htype : r.componentType = "DataFlowEdge")
    (houtput : r.requiredText "sourceOutput" = .ok output)
    (hinput : r.requiredText "destinationInput" = .ok input)
    (hbuild : Kind.buildDataFlowEdge source output target input =
      .ok (.dataFlowEdge source output target input)) :
    Makes r [[source], [target]] (.dataFlowEdge source output target input)

/-! The readers of the catalog, kind by kind. -/

theorem asks_readAgent (htype : r.componentType = "Agent") :
    reader.Asks r (r.questions ["llmConfig", "tools"]) (readAgent reader r) (Makes r) := by
  refine .component rfl fun config => ?_
  refine .lift Record.requiredText_local fun prompt hprompt => ?_
  refine .checked_bind fun _ hconfig => .componentList rfl fun tools hfits => ?_
  refine .checked_bind fun _ htools => .lift Record.slots_local fun slots hslots => ?_
  refine .lift Record.optionalBool_local fun human hhuman => .pure ?_
  exact .agent htype hprompt hconfig hfits htools hslots hhuman

theorem asks_readSwarm (htype : r.componentType = "Swarm") :
    reader.Asks r (r.questions ["firstAgent", "relationships"]) (readSwarm reader r) (Makes r) := by
  refine .component rfl fun first => ?_
  refine .componentPairs rfl fun pairs hfits => .checked fun k hbuild => ?_
  obtain rfl := Kind.buildSwarm_ok hbuild
  exact .swarm htype hfits hbuild

theorem asks_readManagerWorkers (htype : r.componentType = "ManagerWorkers") :
    reader.Asks r (r.questions ["groupManager", "workers"]) (readManagerWorkers reader r)
      (Makes r) := by
  refine .component rfl fun manager => ?_
  refine .componentList rfl fun workers hfits => .checked fun k hbuild => ?_
  obtain rfl := Kind.buildManagerWorkers_ok hbuild
  exact .managerWorkers htype hfits hbuild

theorem asks_readFlow (htype : r.componentType = "Flow") :
    reader.Asks r
      (r.questions ["startNode", "nodes", "controlFlowConnections", "dataFlowConnections"])
      (readFlow reader r) (Makes r) := by
  refine .component rfl fun start => ?_
  refine .componentList rfl fun nodes hnodes => .checked_bind fun _ hlisted => ?_
  refine .componentList rfl fun control hcontrol => .checked_bind fun _ hedges => ?_
  refine .componentList rfl fun data hdata => .checked_bind fun _ hjoins => ?_
  refine .lift Record.slots_local fun slots hslots => .pure ?_
  exact .flow htype hnodes hlisted hcontrol hedges hdata hjoins hslots

theorem asks_readControlFlowEdge (htype : r.componentType = "ControlFlowEdge") :
    reader.Asks r (r.questions ["fromNode", "toNode"]) (readControlFlowEdge reader r)
      (Makes r) := by
  refine .component rfl fun source => ?_
  refine .component rfl fun target => ?_
  refine .checked_bind fun _ hsource => .checked_bind fun _ htarget => ?_
  exact .lift Record.optionalText_local fun branch hbranch =>
    .pure (.controlFlowEdge htype hsource htarget hbranch)

theorem asks_readDataFlowEdge (htype : r.componentType = "DataFlowEdge") :
    reader.Asks r (r.questions ["sourceNode", "destinationNode"]) (readDataFlowEdge reader r)
      (Makes r) := by
  refine .component rfl fun source => ?_
  refine .lift Record.requiredText_local fun output houtput => ?_
  refine .component rfl fun target => ?_
  refine .lift Record.requiredText_local fun input hinput => .checked fun k hbuild => ?_
  obtain rfl := Kind.buildDataFlowEdge_ok hbuild
  exact .dataFlowEdge htype houtput hinput hbuild

theorem asks_readNode (hnode : r.componentType ∈ nodeTypes) :
    reader.Asks r (r.questions (componentFields r.componentType)) (readNode reader r)
      (Makes r) := by
  unfold readNode
  refine .lift Record.slots_local fun slots hslots => ?_
  split
  all_goals (rename_i htype; try rw [htype])
  · exact .pure (.node hnode hslots (.start htype))
  · exact .lift Record.optionalText_local fun branch hbranch =>
      .pure (.node hnode hslots (.finish htype hbranch))
  · refine .component rfl fun config => ?_
    refine .lift Record.requiredText_local fun prompt hprompt => .checked fun k hbuild => ?_
    obtain rfl := Kind.buildLlmNode_ok hbuild
    exact .node hnode hslots (.llm htype hprompt hbuild)
  · refine .component rfl fun t => .checked fun k hbuild => ?_
    obtain rfl := Kind.buildToolNode_ok hbuild
    exact .node hnode hslots (.tool htype hbuild)
  · refine .component rfl fun a => .checked fun k hbuild => ?_
    obtain rfl := Kind.buildAgentNode_ok hbuild
    exact .node hnode hslots (.agent htype hbuild)
  · refine .component rfl fun f => .checked fun k hbuild => ?_
    obtain rfl := Kind.buildFlowNode_ok hbuild
    exact .node hnode hslots (.flow htype hbuild)
  · exact .lift Record.textMapping_local fun mapping hmapping =>
      .pure (.node hnode hslots (.branching htype hmapping))
  · exact .throw trivial

/-- Reading a record of a builtin type asks for all that stands in its component fields, and the
kind is made of what is given. -/
theorem asks_read : reader.Asks r (r.questions (componentFields r.componentType)) (read reader r)
    (Makes r) := by
  unfold read
  split
  · rename_i provider hprovider
    rw [componentFields_config hprovider]
    refine .lifted (readModelConfig_local provider) fun k hread => ?_
    obtain ⟨c, rfl, hconfig, rfl⟩ := readModelConfig_ok_iff.mp hread
    exact .modelConfig hprovider hconfig
  · split
    · rename_i htool
      rw [componentFields_tool (List.contains_iff_mem.mp htool)]
      refine .lifted readTool_local fun k hread => ?_
      obtain ⟨t, htool, rfl⟩ := readTool_ok_iff.mp hread
      exact .tool htool
    · split
      · rename_i hnode
        exact asks_readNode (List.contains_iff_mem.mp hnode)
      · split
        all_goals (rename_i htype; try rw [htype])
        · exact asks_readAgent htype
        · exact asks_readSwarm htype
        · exact asks_readManagerWorkers htype
        · exact asks_readFlow htype
        · exact asks_readControlFlowEdge htype
        · exact asks_readDataFlowEdge htype
        · exact .throw trivial

/-! The same answers lead to the same kind. -/

theorem follows_readNode {role : NodeRole} {slots : Slots} (hslots : r.slots = .ok slots)
    (h : MakesRole r slots answers role) :
    reader.Follows r (r.questions (componentFields r.componentType)) answers (readNode reader r)
      (.node role slots) := by
  refine .lift hslots ?_
  cases h with
  | start htype =>
    rw [htype]
    exact .pure _
  | finish htype hbranch =>
    rw [htype]
    exact .lift hbranch (.pure _)
  | llm htype hprompt hbuild =>
    rw [htype]
    exact .component rfl (.lift hprompt (.checked hbuild))
  | tool htype hbuild =>
    rw [htype]
    exact .component rfl (.checked hbuild)
  | agent htype hbuild =>
    rw [htype]
    exact .component rfl (.checked hbuild)
  | flow htype hbuild =>
    rw [htype]
    exact .component rfl (.checked hbuild)
  | branching htype hmapping =>
    rw [htype]
    exact .lift hmapping (.pure _)

theorem follows_read (h : Makes r answers k) :
    reader.Follows r (r.questions (componentFields r.componentType)) answers (read reader r) k := by
  have hother {type : String} (htype : type ∈ toolTypes ∨ type ∈ nodeTypes) :
      Provider.ofComponentType? type = none := by
    have hall : ∀ type ∈ toolTypes ++ nodeTypes, Provider.ofComponentType? type = none := by decide
    exact hall type (List.mem_append.mpr htype)
  unfold read
  cases h with
  | modelConfig hprovider hconfig =>
    rw [componentFields_config hprovider, hprovider]
    exact .lifted (readModelConfig_ok_iff.mpr ⟨_, rfl, hconfig, rfl⟩)
  | tool htool =>
    have hlisted : toolTypes.contains r.componentType = true :=
      List.contains_iff_mem.mpr htool.type_mem
    rw [componentFields_tool htool.type_mem, hother (.inl htool.type_mem)]
    simp only [hlisted, if_true]
    exact .lifted (readTool_ok_iff.mpr ⟨_, htool, rfl⟩)
  | node htype hslots hrole =>
    have htool : toolTypes.contains r.componentType = false := by
      have hall : ∀ type ∈ nodeTypes, toolTypes.contains type = false := by decide
      exact hall _ htype
    have hnode : nodeTypes.contains r.componentType = true := List.contains_iff_mem.mpr htype
    rw [hother (.inr htype)]
    simp only [htool, hnode, if_true]
    exact follows_readNode hslots hrole
  | agent htype hprompt hconfig hfits htools hslots hhuman =>
    rw [htype]
    exact .component rfl <| .lift hprompt <|
      .checked_bind hconfig <| .componentList rfl hfits <| .checked_bind htools <|
      .lift hslots <| .lift hhuman <| .pure _
  | swarm htype hfits hbuild =>
    rw [htype]
    exact .component rfl <|
      .componentPairs rfl hfits <| .checked hbuild
  | managerWorkers htype hfits hbuild =>
    rw [htype]
    exact .component rfl <|
      .componentList rfl hfits <| .checked hbuild
  | flow htype hnodes hlisted hcontrol hedges hdata hjoins hslots =>
    rw [htype]
    exact .component rfl <|
      .componentList rfl hnodes <| .checked_bind hlisted <|
      .componentList rfl hcontrol <| .checked_bind hedges <|
      .componentList rfl hdata <| .checked_bind hjoins <| .lift hslots <| .pure _
  | controlFlowEdge htype hsource htarget hbranch =>
    rw [htype]
    exact .component rfl <|
      .component rfl <| .checked_bind hsource <|
      .checked_bind htarget <| .lift hbranch <| .pure _
  | dataFlowEdge htype houtput hinput hbuild =>
    rw [htype]
    exact .component rfl <| .lift houtput <|
      .component rfl <| .lift hinput <| .checked hbuild

/-- Reading ends well just if the questions are answered and a kind is made of the answers. -/
theorem read_ok_iff {s t : LoadState} : read reader r s = .ok (k, t) ↔ ∃ answers,
    reader.askFor r (r.questions (componentFields r.componentType)) s = .ok (answers, t) ∧
      Makes r answers k :=
  ⟨asks_read.ok s k t, fun ⟨_, hasked, hk⟩ => (follows_read hk).ok s t hasked⟩

namespace Makes

theorem type (h : Makes r answers k) : k.componentType = r.componentType := by
  cases h with
  | modelConfig hprovider hconfig => simpa [Kind.componentType] using List.find?_some hprovider
  | tool htool => exact htool.type
  | node htype hslots hrole => cases hrole <;> exact Eq.symm ‹_›
  | _ => exact Eq.symm ‹_›

theorem builtin (h : Makes r answers k) : k.isBuiltin = true := by
  cases h <;> rfl

/-- The kind holds what was answered, in order. -/
theorem held (h : Makes r answers k) : heldComponents k.fields = answers.flatten := by
  cases h with
  | node htype hslots hrole =>
    rw [Kind.held_node, Kind.held_role]
    cases hrole <;> rfl
  | _ => simp

/-- Every component field is as it should be. -/
theorem fits (h : Makes r answers k) :
    ∀ field ∈ componentFields r.componentType, r.FitsAt field := by
  cases h with
  | modelConfig hprovider hconfig => simp [componentFields_config hprovider]
  | tool htool => simp [componentFields_tool htool.type_mem]
  | node htype hslots hrole =>
    have hall : ∀ type ∈ nodeTypes, ∀ field ∈ componentFields type, shapeOf field = .one := by
      decide
    exact fun field hfield => Record.fitsAt_one (hall _ htype field hfield)
  | agent htype hprompt hconfig hfits htools hslots hhuman =>
    rw [htype]
    simpa [componentFields] using ⟨Record.fitsAt_one rfl, hfits⟩
  | swarm htype hfits hbuild =>
    rw [htype]
    simpa [componentFields] using ⟨Record.fitsAt_one rfl, hfits⟩
  | managerWorkers htype hfits hbuild =>
    rw [htype]
    simpa [componentFields] using ⟨Record.fitsAt_one rfl, hfits⟩
  | flow htype hnodes hlisted hcontrol hedges hdata hjoins hslots =>
    rw [htype]
    simpa [componentFields] using ⟨Record.fitsAt_one rfl, hnodes, hcontrol, hdata⟩
  | controlFlowEdge htype hsource htarget hbranch =>
    rw [htype]
    simpa [componentFields] using ⟨Record.fitsAt_one rfl, Record.fitsAt_one rfl⟩
  | dataFlowEdge htype houtput hinput hbuild =>
    rw [htype]
    simpa [componentFields] using ⟨Record.fitsAt_one rfl, Record.fitsAt_one rfl⟩

end Makes
end Builtin
end AgentGraph
