import AgentGraph.Component.Build
import AgentGraph.Proofs.Load.Hide
import AgentGraph.Proofs.Schema.Cast
import AgentGraph.Proofs.Schema.RoundTrip
/-!
# Kinds that were built

A kind is built if the checks of its constructor pass. The checks see of the components they are about
only what a document gives back, so they pass again for the components that are read back.
-/
namespace AgentGraph
open List (Forall₂)

/-- Inputs and outputs with unique titles, all of them read from the trees of schemas. -/
structure Slots.Made (s : Slots) : Prop where
  unique : Slots.of s.inputs s.outputs = .ok s
  read : ∀ p ∈ s.inputs ++ s.outputs, p.FromTree

/-- The role of a node is as its constructor leaves it. -/
def NodeRole.Built (s : Slots) : NodeRole → Prop
  | .llm l p => Kind.buildLlmNode l p s = .ok (.node (.llm l p) s)
  | .tool c => Kind.buildToolNode c s = .ok (.node (.tool c) s)
  | .agent c => Kind.buildAgentNode c s = .ok (.node (.agent c) s)
  | .flow c => Kind.buildFlowNode c s = .ok (.node (.flow c) s)
  | _ => True

/-- A kind of the builtin catalog is as its constructor leaves it. -/
def Kind.Built : Kind → Prop
  | .modelConfig c => c.provider.requiresUrl = true → c.url ≠ none
  | .tool t => t.slots.Made
  | .agent l _ ts _ s => Expectation.agentConfig.check l = .ok () ∧
      Expectation.agentTools.checkAll ts = .ok () ∧ s.Made
  | .swarm f rs => Kind.buildSwarm f rs = .ok (.swarm f rs)
  | .managerWorkers m ws => Kind.buildManagerWorkers m ws = .ok (.managerWorkers m ws)
  | .flow n ns cs ds s => Kind.checkFlowNodes n ns = .ok () ∧
      Expectation.flowControl.checkAll cs = .ok () ∧
      Expectation.flowData.checkAll ds = .ok () ∧ s.Made
  | .node role s => role.Built s ∧ s.Made
  | .controlFlowEdge f b t => Kind.buildControlFlowEdge f t b = .ok (.controlFlowEdge f b t)
  | .dataFlowEdge s o d i => Kind.buildDataFlowEdge s o d i = .ok (.dataFlowEdge s o d i)
  | .extension _ _ => False

theorem Kind.Built.isBuiltin {k : Kind} (h : k.Built) : k.isBuiltin = true := by
  cases k with
  | extension type fields => exact h.elim
  | _ => rfl

theorem Kind.Built.slots {k : Kind} {s : Slots} (h : k.Built) (hs : k.slots? = some s) : s.Made := by
  cases k with
  | tool t => cases hs; exact h
  | agent l p ts hu s => cases hs; exact h.2.2
  | flow n ns cs ds s => cases hs; exact h.2.2.2
  | node role s => cases hs; exact h.2
  | _ => cases hs

/-- Two components have one id and answer alike to the tests by which components are expected. -/
structure Component.Alike (c d : Component) : Prop where
  id : c.id = d.id
  modelConfig : c.isModelConfig = d.isModelConfig
  tool : c.isTool = d.isTool
  agent : c.isAgent = d.isAgent
  agentic : c.isAgentic = d.isAgentic
  flow : c.isFlow = d.isFlow
  node : c.isNode = d.isNode
  startNode : c.isStartNode = d.isStartNode
  controlFlowEdge : c.isControlFlowEdge = d.isControlFlowEdge
  dataFlowEdge : c.isDataFlowEdge = d.isDataFlowEdge

namespace Component
variable {shows : String → String → Bool} {c d e : Component}

theorem Alike.refl (c : Component) : Alike c c := ⟨rfl, rfl, rfl, rfl, rfl, rfl, rfl, rfl, rfl, rfl⟩

theorem Alike.trans (h : Alike c d) (k : Alike d e) : Alike c e where
  id := h.id.trans k.id
  modelConfig := h.modelConfig.trans k.modelConfig
  tool := h.tool.trans k.tool
  agent := h.agent.trans k.agent
  agentic := h.agentic.trans k.agentic
  flow := h.flow.trans k.flow
  node := h.node.trans k.node
  startNode := h.startNode.trans k.startNode
  controlFlowEdge := h.controlFlowEdge.trans k.controlFlowEdge
  dataFlowEdge := h.dataFlowEdge.trans k.dataFlowEdge

theorem Alike.symm (h : Alike c d) : Alike d c where
  id := h.id.symm
  modelConfig := h.modelConfig.symm
  tool := h.tool.symm
  agent := h.agent.symm
  agentic := h.agentic.symm
  flow := h.flow.symm
  node := h.node.symm
  startNode := h.startNode.symm
  controlFlowEdge := h.controlFlowEdge.symm
  dataFlowEdge := h.dataFlowEdge.symm

theorem alike_of_same (h : c.same d = true) : Alike c d := by
  obtain ⟨handle, id, name, description, metadata, k⟩ := c
  obtain ⟨handle', id', name', description', metadata', l⟩ := d
  obtain ⟨hid, -, -, -, hkind⟩ := same_iff.mp h
  simp only [Component.id] at hid
  subst hid
  simp only [kind] at hkind
  unfold Kind.same at hkind
  split at hkind
  case h_7 r s r' s' =>
    simp only [Bool.and_eq_true] at hkind
    have hrole := hkind.1
    unfold NodeRole.same at hrole
    split at hrole <;> first | exact ⟨rfl, rfl, rfl, rfl, rfl, rfl, rfl, rfl, rfl, rfl⟩ | cases hrole
  all_goals first | exact ⟨rfl, rfl, rfl, rfl, rfl, rfl, rfl, rfl, rfl, rfl⟩ | cases hkind

theorem alike_hide (c : Component) : Alike (c.hide shows) c := by
  obtain ⟨handle, id, name, description, metadata, k⟩ := c
  cases k with
  | node r s =>
    cases r <;> rw [hide, Kind.hide, NodeRole.hide] <;>
      exact ⟨rfl, rfl, rfl, rfl, rfl, rfl, rfl, rfl, rfl, rfl⟩
  | _ =>
    rw [hide, Kind.hide]
    exact ⟨rfl, rfl, rfl, rfl, rfl, rfl, rfl, rfl, rfl, rfl⟩

end Component

/-- What stands for components when they are read back: equal to them but for what is not shown, with
inputs and outputs that can be written and read again. -/
structure ReadBack (shows : String → String → Bool) (R : Component → Component → Prop) : Prop where
  same : ∀ c c', R c c' → c'.same (c.hide shows) = true
  readable : ∀ c c', R c c' → ∀ p ∈ c'.inputs ++ c'.outputs, p.schema.Readable

namespace Expectation
variable {e : Expectation} {R : Component → Component → Prop} {c c' : Component}
  {cs cs' : List Component}

theorem check_ok_iff : e.check c = .ok () ↔ e.holds c = true := by
  unfold check
  split <;> simp [*]

theorem checkAll_ok_iff : e.checkAll cs = .ok () ↔ ∀ c ∈ cs, e.holds c = true := by
  induction cs with
  | nil => simp [checkAll]
  | cons c rest ih =>
    rw [List.forall_mem_cons, ← check_ok_iff, ← ih, checkAll]
    cases e.check c with
    | error cause => simp [bind, Except.bind]
    | ok u => simp [bind, Except.bind]

theorem checkPairs_ok_iff {ps : List (Component × Component)} :
    e.checkPairs ps = .ok () ↔ e.checkAll (Kind.heldPairs ps) = .ok () := by
  induction ps with
  | nil => simp [checkPairs, checkAll, Kind.heldPairs]
  | cons p rest ih =>
    obtain ⟨a, b⟩ := p
    have hheld : Kind.heldPairs ((a, b) :: rest) = a :: b :: Kind.heldPairs rest := rfl
    rw [hheld, checkPairs, checkAll, checkAll]
    cases e.check a with
    | error cause => simp [bind, Except.bind]
    | ok u =>
      cases e.check b with
      | error cause => simp [bind, Except.bind]
      | ok v => simpa [bind, Except.bind] using ih

/-- The expectation asks nothing that components differ in when they are read back. -/
def Steady (e : Expectation) (R : Component → Component → Prop) : Prop :=
  ∀ c c', R c c' → e.holds c' = e.holds c

theorem Steady.check (h : e.Steady R) (hc : R c c') (hcheck : e.check c = .ok ()) :
    e.check c' = .ok () := by
  rw [check_ok_iff, h c c' hc]
  exact check_ok_iff.mp hcheck

theorem Steady.checkAll (h : e.Steady R) (hcs : Forall₂ R cs cs')
    (hcheck : e.checkAll cs = .ok ()) : e.checkAll cs' = .ok () := by
  rw [checkAll_ok_iff] at hcheck ⊢
  intro c' hc'
  obtain ⟨c, hc, hcc⟩ := exists_left hcs hc'
  rw [h c c' hcc]
  exact hcheck c hc

theorem Steady.checkPairs (h : e.Steady R) {ps ps' : List (Component × Component)}
    (hps : Forall₂ (fun p q => R p.1 q.1 ∧ R p.2 q.2) ps ps')
    (hcheck : e.checkPairs ps = .ok ()) : e.checkPairs ps' = .ok () :=
  checkPairs_ok_iff.mpr (h.checkAll (Kind.Restored.heldPairs hps) (checkPairs_ok_iff.mp hcheck))

end Expectation

namespace Component

/-- What passes one of the tests of the constructors is of a builtin kind. -/
theorem isBuiltin_of_tested {c : Component} (h : c.isModelConfig ∨ c.isTool ∨ c.isAgentic ∨ c.isFlow ∨
    c.isNode ∨ c.isControlFlowEdge ∨ c.isDataFlowEdge) : c.kind.isBuiltin = true := by
  unfold isModelConfig isTool isAgentic isFlow isNode isControlFlowEdge isDataFlowEdge at h
  cases hk : c.kind with
  | extension type fields => simp [hk] at h
  | _ => rfl

theorem isAgentic_of_isAgent {c : Component} (h : c.isAgent = true) : c.isAgentic = true := by
  unfold isAgent at h
  unfold isAgentic
  split at h <;> simp_all

theorem isNode_of_isStartNode {c : Component} (h : c.isStartNode = true) : c.isNode = true := by
  unfold isStartNode at h
  unfold isNode
  split at h <;> simp_all

end Component

/-- The role of a node holds a component of a builtin kind, if any. -/
theorem NodeRole.Built.held_builtin {s : Slots} {role : NodeRole} (h : role.Built s) :
    ∀ c ∈ Kind.heldByRole role, c.kind.isBuiltin = true := by
  cases role with
  | llm l p =>
    obtain ⟨_, hcheck, -⟩ := bind_ok h
    have hconfig : l.isModelConfig = true := Expectation.check_ok_iff.mp hcheck
    exact List.forall_mem_singleton.mpr (Component.isBuiltin_of_tested (by simp [hconfig]))
  | tool t =>
    obtain ⟨_, hcheck, -⟩ := bind_ok h
    have htool : t.isTool = true := Expectation.check_ok_iff.mp hcheck
    exact List.forall_mem_singleton.mpr (Component.isBuiltin_of_tested (by simp [htool]))
  | agent a =>
    obtain ⟨_, hcheck, -⟩ := bind_ok h
    have hagent : a.isAgentic = true := Expectation.check_ok_iff.mp hcheck
    exact List.forall_mem_singleton.mpr (Component.isBuiltin_of_tested (by simp [hagent]))
  | flow f =>
    obtain ⟨_, hcheck, -⟩ := bind_ok h
    have hflow : f.isFlow = true := Expectation.check_ok_iff.mp hcheck
    exact List.forall_mem_singleton.mpr (Component.isBuiltin_of_tested (by simp [hflow]))
  | _ => simp [Kind.heldByRole]

/-- A kind of the builtin catalog holds components of builtin kinds only. -/
theorem Kind.Built.held_builtin {k : Kind} (h : k.Built) :
    ∀ c ∈ heldComponents k.fields, c.kind.isBuiltin = true := by
  have hends {a b : Component} (ha : a.isNode = true) (hb : b.isNode = true) :
      ∀ c ∈ [a, b], c.kind.isBuiltin = true := by
    rw [List.forall_mem_cons, List.forall_mem_singleton]
    exact ⟨Component.isBuiltin_of_tested (by simp [ha]), Component.isBuiltin_of_tested (by simp [hb])⟩
  cases k with
  | modelConfig _ => simp
  | tool _ => simp
  | agent l p ts hu s =>
    obtain ⟨hconfig, htools, -⟩ := h
    rw [held_agent, List.forall_mem_cons]
    exact ⟨Component.isBuiltin_of_tested (.inl (Expectation.check_ok_iff.mp hconfig)),
      fun c hc => Component.isBuiltin_of_tested
        (.inr (.inl (Expectation.checkAll_ok_iff.mp htools c hc)))⟩
  | swarm f rs =>
    obtain ⟨_, hfirst, hrest⟩ := bind_ok h
    obtain ⟨_, hmembers, -⟩ := bind_ok hrest
    rw [Expectation.checkPairs_ok_iff, Expectation.checkAll_ok_iff] at hmembers
    rw [held_swarm, List.forall_mem_cons]
    exact ⟨Component.isBuiltin_of_tested (.inr (.inr (.inl (Expectation.check_ok_iff.mp hfirst)))),
      fun c hc => Component.isBuiltin_of_tested (.inr (.inr (.inl (hmembers c hc))))⟩
  | managerWorkers m ws =>
    obtain ⟨_, hmanager, hrest⟩ := bind_ok h
    split at hrest
    · cases hrest
    · obtain ⟨_, hworkers, -⟩ := bind_ok hrest
      have hagentic := Component.isAgentic_of_isAgent (Expectation.check_ok_iff.mp hmanager)
      rw [held_managerWorkers, List.forall_mem_cons]
      exact ⟨Component.isBuiltin_of_tested (.inr (.inr (.inl hagentic))),
        fun c hc => Component.isBuiltin_of_tested
          (.inr (.inr (.inl (Expectation.checkAll_ok_iff.mp hworkers c hc))))⟩
  | flow n ns cs ds s =>
    obtain ⟨hnodes, hcontrol, hdata, -⟩ := h
    obtain ⟨_, hstart, hrest⟩ := bind_ok hnodes
    obtain ⟨_, hlisted, -⟩ := bind_ok hrest
    have hnode := Component.isNode_of_isStartNode (Expectation.check_ok_iff.mp hstart)
    rw [held_flow]
    refine List.forall_mem_cons.mpr ⟨Component.isBuiltin_of_tested (by simp [hnode]),
      List.forall_mem_append.mpr ⟨fun c hc => ?_, List.forall_mem_append.mpr
        ⟨fun c hc => ?_, fun c hc => ?_⟩⟩⟩
    · have hnode : c.isNode = true := Expectation.checkAll_ok_iff.mp hlisted c hc
      exact Component.isBuiltin_of_tested (by simp [hnode])
    · have hedge : c.isControlFlowEdge = true := Expectation.checkAll_ok_iff.mp hcontrol c hc
      exact Component.isBuiltin_of_tested (by simp [hedge])
    · have hedge : c.isDataFlowEdge = true := Expectation.checkAll_ok_iff.mp hdata c hc
      exact Component.isBuiltin_of_tested (by simp [hedge])
  | node role s =>
    rw [held_node, held_role]
    exact h.1.held_builtin
  | controlFlowEdge f b t =>
    obtain ⟨_, hsource, hrest⟩ := bind_ok h
    obtain ⟨_, htarget, -⟩ := bind_ok hrest
    rw [held_controlFlowEdge]
    exact hends (Expectation.check_ok_iff.mp hsource) (Expectation.check_ok_iff.mp htarget)
  | dataFlowEdge s o d i =>
    obtain ⟨_, hsource, hrest⟩ := bind_ok h
    obtain ⟨_, htarget, -⟩ := bind_ok hrest
    rw [held_dataFlowEdge]
    exact hends (Expectation.check_ok_iff.mp hsource) (Expectation.check_ok_iff.mp htarget)
  | extension type fields => exact h.elim

namespace Component
variable {shows : String → String → Bool} {c d : Component}

theorem sameList_slots (h : c.same d = true) :
    Property.sameList c.inputs d.inputs = true ∧ Property.sameList c.outputs d.outputs = true := by
  have hkind := (same_iff.mp h).2.2.2.2
  unfold inputs outputs
  cases hk : c.kind <;> cases hl : d.kind <;>
    simp_all [Kind.same, Kind.slots?, Tool.same, Slots.same, Property.sameList]

/-- The properties of a component are those of the slots of its kind. -/
theorem forall_mem_slots {P : Property → Prop}
    (h : ∀ s, c.kind.slots? = some s → ∀ p ∈ s.inputs ++ s.outputs, P p) :
    ∀ p ∈ c.inputs ++ c.outputs, P p := by
  intro p hp
  unfold inputs outputs at hp
  cases hslots : c.kind.slots? with
  | none => simp [hslots] at hp
  | some s =>
    simp only [hslots] at hp
    exact h s hslots p hp

theorem inputs_hide (c : Component) : (c.hide shows).inputs = c.inputs := by
  rw [inputs, slots_hide, inputs]

theorem outputs_hide (c : Component) : (c.hide shows).outputs = c.outputs := by
  rw [outputs, slots_hide, outputs]

end Component

/-- Under each title of the first list, the second has a property of the same type. -/
def Property.Covered (ps qs : List Property) : Prop :=
  ∀ title p, ps.find? (·.title == title) = some p →
    ∃ q, qs.find? (·.title == title) = some q ∧ p.schema.NamesOnce ∧ p.sameType q = true

theorem Property.title_eq_of_same {p q : Property} (h : p.same q = true) : p.title = q.title := by
  rw [title, title, (Schema.same_iff.mp h).1]

/-- Lists whose properties have the same titles and types one by one. -/
theorem Property.covered_of_forall₂ {S : Property → Property → Prop} {ps qs : List Property}
    (h : Forall₂ S ps qs) (htitle : ∀ p q, S p q → p.title = q.title)
    (htype : ∀ p ∈ ps, ∀ q ∈ qs, S p q → p.schema.NamesOnce ∧ p.sameType q = true) :
    Covered ps qs := by
  intro title p hp
  induction h with
  | nil => cases hp
  | @cons a b ps qs hab _ ih =>
    rw [List.find?_cons] at hp ⊢
    rw [← htitle a b hab]
    split at hp
    · obtain rfl := Option.some.inj hp
      exact ⟨b, rfl, htype a List.mem_cons_self b List.mem_cons_self hab⟩
    · exact ih (fun p hp q hq => htype p (List.mem_cons_of_mem _ hp) q (List.mem_cons_of_mem _ hq)) hp

/-- What stands for components wherever they are expected: it answers alike, and what is joined to
their outputs and inputs can be joined to its own. -/
structure Standing (R : Component → Component → Prop) : Prop where
  alike : ∀ c c', R c c' → c'.Alike c
  outputs : ∀ c c', R c c' → Property.Covered c.outputs c'.outputs
  inputs : ∀ c c', R c c' → Property.Covered c.inputs c'.inputs

namespace Standing
variable {R : Component → Component → Prop} {c c' : Component}

theorem agent {l l' : Component} {ts ts' : List Component} (h : Standing R) (hl : R l l')
    (hts : Forall₂ R ts ts') (hconfig : Expectation.agentConfig.check l = .ok ())
    (htools : Expectation.agentTools.checkAll ts = .ok ()) :
    Expectation.agentConfig.check l' = .ok () ∧ Expectation.agentTools.checkAll ts' = .ok () :=
  ⟨Expectation.Steady.check (fun c c' hc => (h.alike c c' hc).modelConfig) hl hconfig,
    Expectation.Steady.checkAll (fun c c' hc => (h.alike c c' hc).tool) hts htools⟩

theorem swarm {f f' : Component} {rs rs' : List (Component × Component)} (h : Standing R)
    (hf : R f f') (hrs : Forall₂ (fun p q => R p.1 q.1 ∧ R p.2 q.2) rs rs')
    (hbuilt : Kind.buildSwarm f rs = .ok (.swarm f rs)) :
    Kind.buildSwarm f' rs' = .ok (.swarm f' rs') := by
  obtain ⟨_, hfirst, hbuilt⟩ := bind_ok hbuilt
  obtain ⟨_, hmembers, -⟩ := bind_ok hbuilt
  have hf' : Expectation.swarmFirst.check f' = .ok () :=
    Expectation.Steady.check (fun c c' hc => (h.alike c c' hc).agentic) hf hfirst
  have hrs' : Expectation.swarmMember.checkPairs rs' = .ok () :=
    Expectation.Steady.checkPairs (fun c c' hc => (h.alike c c' hc).agentic) hrs hmembers
  rw [Kind.buildSwarm, hf', hrs']
  rfl

theorem managerWorkers {m m' : Component} {ws ws' : List Component} (h : Standing R)
    (hm : R m m') (hws : Forall₂ R ws ws')
    (hbuilt : Kind.buildManagerWorkers m ws = .ok (.managerWorkers m ws)) :
    Kind.buildManagerWorkers m' ws' = .ok (.managerWorkers m' ws') := by
  have hempty : ws'.isEmpty = ws.isEmpty := by
    cases hws <;> rfl
  obtain ⟨_, hmanager, hbuilt⟩ := bind_ok hbuilt
  have hm' : Expectation.manager.check m' = .ok () :=
    Expectation.Steady.check (fun c c' hc => (h.alike c c' hc).agent) hm hmanager
  rw [Kind.buildManagerWorkers, hm', hempty]
  split at hbuilt
  · cases hbuilt
  · rename_i hsome
    obtain ⟨_, hworkers, -⟩ := bind_ok hbuilt
    have hws' : Expectation.worker.checkAll ws' = .ok () :=
      Expectation.Steady.checkAll (fun c c' hc => (h.alike c c' hc).agentic) hws hworkers
    rw [if_neg hsome, hws']
    rfl

theorem flowNodes {n n' : Component} {ns ns' : List Component} (h : Standing R)
    (hn : R n n') (hns : Forall₂ R ns ns') (hbuilt : Kind.checkFlowNodes n ns = .ok ()) :
    Kind.checkFlowNodes n' ns' = .ok () := by
  have hlisted : (ns'.any fun c => c.id == n'.id) = ns.any fun c => c.id == n.id := by
    rw [(h.alike n n' hn).id]
    clear hbuilt
    induction hns with
    | nil => rfl
    | cons hc _ ih => rw [List.any_cons, List.any_cons, ih, (h.alike _ _ hc).id]
  obtain ⟨_, hstart, hbuilt⟩ := bind_ok hbuilt
  obtain ⟨_, hnodes, hbuilt⟩ := bind_ok hbuilt
  have hn' : Expectation.flowStart.check n' = .ok () :=
    Expectation.Steady.check (fun c c' hc => (h.alike c c' hc).startNode) hn hstart
  have hns' : Expectation.flowNode.checkAll ns' = .ok () :=
    Expectation.Steady.checkAll (fun c c' hc => (h.alike c c' hc).node) hns hnodes
  rw [Kind.checkFlowNodes, hn', hns', hlisted, (h.alike n n' hn).id]
  exact hbuilt

theorem flowEdges {cs cs' ds ds' : List Component} (h : Standing R) (hcs : Forall₂ R cs cs')
    (hds : Forall₂ R ds ds') (hcontrol : Expectation.flowControl.checkAll cs = .ok ())
    (hdata : Expectation.flowData.checkAll ds = .ok ()) :
    Expectation.flowControl.checkAll cs' = .ok () ∧ Expectation.flowData.checkAll ds' = .ok () :=
  ⟨Expectation.Steady.checkAll (fun c c' hc => (h.alike c c' hc).controlFlowEdge) hcs hcontrol,
    Expectation.Steady.checkAll (fun c c' hc => (h.alike c c' hc).dataFlowEdge) hds hdata⟩

theorem controlFlowEdge {f f' t t' : Component} (h : Standing R) (hf : R f f') (ht : R t t')
    (hsource : Expectation.controlSource.check f = .ok ())
    (htarget : Expectation.controlTarget.check t = .ok ()) :
    Expectation.controlSource.check f' = .ok () ∧ Expectation.controlTarget.check t' = .ok () :=
  ⟨Expectation.Steady.check (fun c c' hc => (h.alike c c' hc).node) hf hsource,
    Expectation.Steady.check (fun c c' hc => (h.alike c c' hc).node) ht htarget⟩

section Node
variable {s s' : Slots} (h : Standing R) (hc : R c c')
include h hc

theorem llmNode {p : String} (hbuilt : Kind.buildLlmNode c p s = .ok (.node (.llm c p) s)) :
    Kind.buildLlmNode c' p s' = .ok (.node (.llm c' p) s') := by
  obtain ⟨_, hcheck, -⟩ := bind_ok hbuilt
  have hcheck' : Expectation.nodeConfig.check c' = .ok () :=
    Expectation.Steady.check (fun a a' ha => (h.alike a a' ha).modelConfig) hc hcheck
  rw [Kind.buildLlmNode, hcheck']
  rfl

theorem toolNode (hbuilt : Kind.buildToolNode c s = .ok (.node (.tool c) s)) :
    Kind.buildToolNode c' s' = .ok (.node (.tool c') s') := by
  obtain ⟨_, hcheck, -⟩ := bind_ok hbuilt
  have hcheck' : Expectation.nodeTool.check c' = .ok () :=
    Expectation.Steady.check (fun a a' ha => (h.alike a a' ha).tool) hc hcheck
  rw [Kind.buildToolNode, hcheck']
  rfl

theorem agentNode (hbuilt : Kind.buildAgentNode c s = .ok (.node (.agent c) s)) :
    Kind.buildAgentNode c' s' = .ok (.node (.agent c') s') := by
  obtain ⟨_, hcheck, -⟩ := bind_ok hbuilt
  have hcheck' : Expectation.nodeAgent.check c' = .ok () :=
    Expectation.Steady.check (fun a a' ha => (h.alike a a' ha).agentic) hc hcheck
  rw [Kind.buildAgentNode, hcheck']
  rfl

theorem flowNode (hbuilt : Kind.buildFlowNode c s = .ok (.node (.flow c) s)) :
    Kind.buildFlowNode c' s' = .ok (.node (.flow c') s') := by
  obtain ⟨_, hcheck, -⟩ := bind_ok hbuilt
  have hcheck' : Expectation.nodeFlow.check c' = .ok () :=
    Expectation.Steady.check (fun a a' ha => (h.alike a a' ha).flow) hc hcheck
  rw [Kind.buildFlowNode, hcheck']
  rfl

end Node

/-- The titles that an edge of data flow joins are there again, and what could be cast still can. -/
theorem dataFlowEdge {s s' d d' : Component} {o i : String} (h : Standing R) (hs : R s s')
    (hd : R d d') (hbuilt : Kind.buildDataFlowEdge s o d i = .ok (.dataFlowEdge s o d i)) :
    Kind.buildDataFlowEdge s' o d' i = .ok (.dataFlowEdge s' o d' i) := by
  obtain ⟨_, hsource, hbuilt⟩ := bind_ok hbuilt
  obtain ⟨_, htarget, hbuilt⟩ := bind_ok hbuilt
  have hs' : Expectation.dataSource.check s' = .ok () :=
    Expectation.Steady.check (fun c c' hc => (h.alike c c' hc).node) hs hsource
  have hd' : Expectation.dataTarget.check d' = .ok () :=
    Expectation.Steady.check (fun c c' hc => (h.alike c c' hc).node) hd htarget
  split at hbuilt
  · cases hbuilt
  · rename_i given hgiven
    split at hbuilt
    · cases hbuilt
    · rename_i wanted hwanted
      split at hbuilt
      · rename_i hcast
        obtain ⟨given', hgiven', hgnames, hgsame⟩ := h.outputs s s' hs o given hgiven
        obtain ⟨wanted', hwanted', hwnames, hwsame⟩ := h.inputs d d' hd i wanted hwanted
        have hcast' : given'.castable wanted' = true :=
          Schema.castable_of_sameTypes hgnames hwnames hgsame hwsame hcast
        simp only [Kind.buildDataFlowEdge, hs', hd', hgiven', hwanted', hcast', if_true]
        rfl
      · cases hbuilt

end Standing

namespace ReadBack
variable {shows : String → String → Bool} {R : Component → Component → Prop} {c c' : Component}

theorem alike (h : ReadBack shows R) (hc : R c c') : c'.Alike c :=
  (Component.alike_of_same (h.same c c' hc)).trans c.alike_hide

/-- What is read back passes the checks of the constructors. -/
theorem standing (h : ReadBack shows R) : Standing R where
  alike _ _ hc := h.alike hc
  outputs c c' hc := by
    have houts := (Component.sameList_slots (h.same c c' hc)).2
    rw [Component.outputs_hide] at houts
    refine Property.covered_of_forall₂ (Property.sameList_iff.mp houts).flip
      (fun p q hpq => (Property.title_eq_of_same hpq).symm) fun p _ q hq hpq => ?_
    exact Schema.sameType_back hpq (h.readable c c' hc q (List.mem_append_right _ hq))
  inputs c c' hc := by
    have hins := (Component.sameList_slots (h.same c c' hc)).1
    rw [Component.inputs_hide] at hins
    refine Property.covered_of_forall₂ (Property.sameList_iff.mp hins).flip
      (fun p q hpq => (Property.title_eq_of_same hpq).symm) fun p _ q hq hpq => ?_
    exact Schema.sameType_back hpq (h.readable c c' hc q (List.mem_append_left _ hq))

end ReadBack
end AgentGraph
