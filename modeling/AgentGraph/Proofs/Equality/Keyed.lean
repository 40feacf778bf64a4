import AgentGraph.Proofs.BuiltinGraph
import AgentGraph.Proofs.Equality.Proper
/-!
# Equality of components is an equivalence

In a keyed component no mapping repeats a key: not in its own data, and in no component that it holds.
Among keyed components equality is reflexive, symmetric and transitive.
-/
namespace AgentGraph

/-- No mapping in a language-model configuration repeats a key. -/
def ModelConfig.Keyed (c : ModelConfig) : Prop :=
  ∀ d, c.parameters = some d → (Tree.map d).Proper

/-- No mapping in an endpoint repeats a key. -/
structure Endpoint.Keyed (e : Endpoint) : Prop where
  apiHeaders : (Tree.map e.apiHeaders).Proper
  sensitiveHeaders : (Tree.map e.sensitiveHeaders).Proper
  data : (Tree.map e.data).Proper

/-- No mapping in a tool repeats a key. -/
structure Tool.Keyed (t : Tool) : Prop where
  endpoint : ∀ e, t.site = .remote e → e.Keyed
  slots : t.slots.Proper

mutual
/-- No mapping in a component or in one that it holds, at any depth, repeats a key. -/
def Component.Keyed : Component → Prop
  | .mk _ _ _ _ metadata kind => (Tree.map metadata).Proper ∧ kind.Keyed
/-- No mapping in a kind repeats a key. -/
def Kind.Keyed : Kind → Prop
  | .modelConfig config => config.Keyed
  | .tool tool => tool.Keyed
  | .agent llmConfig _ tools _ slots => llmConfig.Keyed ∧ keyedComponents tools ∧ slots.Proper
  | .swarm firstAgent relationships => firstAgent.Keyed ∧ keyedPairs relationships
  | .managerWorkers groupManager workers => groupManager.Keyed ∧ keyedComponents workers
  | .flow startNode nodes controlFlow dataFlow slots =>
    startNode.Keyed ∧ keyedComponents nodes ∧ keyedComponents controlFlow ∧
      keyedComponents dataFlow ∧ slots.Proper
  | .node role slots => role.Keyed ∧ slots.Proper
  | .controlFlowEdge fromNode _ toNode => fromNode.Keyed ∧ toNode.Keyed
  | .dataFlowEdge sourceNode _ destinationNode _ => sourceNode.Keyed ∧ destinationNode.Keyed
  | .extension _ fields => (Dict.keys fields).Nodup ∧ keyedFields fields
/-- No mapping in the role of a node repeats a key. -/
def NodeRole.Keyed : NodeRole → Prop
  | .start | .finish _ => True
  | .llm c _ | .tool c | .agent c | .flow c => c.Keyed
  | .branching mapping => (Dict.keys mapping).Nodup
/-- No mapping in a value repeats a key. -/
def Value.Keyed : Value → Prop
  | .data t => t.Proper
  | .component c => c.Keyed
  | .property p => p.schema.Proper
  | .list items => keyedValues items
  | .map entries => (Dict.keys entries).Nodup ∧ keyedFields entries
/-- No mapping in the components of a list repeats a key. -/
def keyedComponents : List Component → Prop
  | [] => True
  | c :: rest => c.Keyed ∧ keyedComponents rest
/-- No mapping in the components of pairs repeats a key. -/
def keyedPairs : List (Component × Component) → Prop
  | [] => True
  | (c, d) :: rest => c.Keyed ∧ d.Keyed ∧ keyedPairs rest
/-- No mapping in the values of a list repeats a key. -/
def keyedValues : List Value → Prop
  | [] => True
  | v :: rest => v.Keyed ∧ keyedValues rest
/-- No mapping in the values of fields repeats a key. -/
def keyedFields : List (String × Value) → Prop
  | [] => True
  | (_, v) :: rest => v.Keyed ∧ keyedFields rest
end

section Data

theorem ModelConfig.Keyed.same_refl {c : ModelConfig} (h : c.Keyed) : c.same c = true := by
  simp only [ModelConfig.same, BEq.rfl, Bool.true_and]
  cases hp : c.parameters with
  | none => rfl
  | some d => exact (h d hp).sameDict_refl

theorem ModelConfig.Keyed.same_symm {c d : ModelConfig} (hc : c.Keyed)
    (h : c.same d = true) : d.same c = true := by
  simp only [ModelConfig.same, Bool.and_eq_true, beq_iff_eq] at h ⊢
  obtain ⟨⟨⟨⟨⟨hp, hm⟩, hu⟩, hk⟩, ht⟩, hd⟩ := h
  refine ⟨⟨⟨⟨⟨hp.symm, hm.symm⟩, hu.symm⟩, hk.symm⟩, ht.symm⟩, ?_⟩
  cases hx : c.parameters <;> cases hy : d.parameters <;>
    simp only [hx, hy, sameOption, Bool.false_eq_true] at hd ⊢
  exact (hc _ hx).sameDict_symm hd

theorem ModelConfig.same_trans {a b c : ModelConfig} (h : a.same b = true)
    (k : b.same c = true) : a.same c = true := by
  simp only [ModelConfig.same, Bool.and_eq_true, beq_iff_eq] at h k ⊢
  obtain ⟨⟨⟨⟨⟨hp, hm⟩, hu⟩, hk⟩, ht⟩, hd⟩ := h
  obtain ⟨⟨⟨⟨⟨kp, km⟩, ku⟩, kk⟩, kt⟩, kd⟩ := k
  refine ⟨⟨⟨⟨⟨hp.trans kp, hm.trans km⟩, hu.trans ku⟩, hk.trans kk⟩, ht.trans kt⟩, ?_⟩
  cases ha : a.parameters <;> cases hb : b.parameters <;> cases hc : c.parameters <;>
    simp only [ha, hb, hc, sameOption, Bool.false_eq_true] at hd kd ⊢
  exact Tree.sameDict_trans hd kd

theorem Endpoint.Keyed.same_refl {e : Endpoint} (h : e.Keyed) : e.same e = true := by
  simp [Endpoint.same, h.apiHeaders.sameDict_refl, h.sensitiveHeaders.sameDict_refl,
    h.data.sameDict_refl]

theorem Endpoint.Keyed.same_symm {e f : Endpoint} (he : e.Keyed) (h : e.same f = true) :
    f.same e = true := by
  simp only [Endpoint.same, Bool.and_eq_true, beq_iff_eq] at h ⊢
  obtain ⟨⟨⟨⟨hu, hm⟩, ha⟩, hs⟩, hd⟩ := h
  exact ⟨⟨⟨⟨hu.symm, hm.symm⟩, he.apiHeaders.sameDict_symm ha⟩,
    he.sensitiveHeaders.sameDict_symm hs⟩, he.data.sameDict_symm hd⟩

theorem Endpoint.same_trans {a b c : Endpoint} (h : a.same b = true) (k : b.same c = true) :
    a.same c = true := by
  simp only [Endpoint.same, Bool.and_eq_true, beq_iff_eq] at h k ⊢
  obtain ⟨⟨⟨⟨hu, hm⟩, ha⟩, hs⟩, hd⟩ := h
  obtain ⟨⟨⟨⟨ku, km⟩, ka⟩, ks⟩, kd⟩ := k
  exact ⟨⟨⟨⟨hu.trans ku, hm.trans km⟩, Tree.sameDict_trans ha ka⟩, Tree.sameDict_trans hs ks⟩,
    Tree.sameDict_trans hd kd⟩

theorem ToolSite.same_trans {a b c : ToolSite} (h : a.same b = true) (k : b.same c = true) :
    a.same c = true := by
  cases a <;> cases b <;> simp only [ToolSite.same, Bool.false_eq_true] at h <;>
    cases c <;> simp only [ToolSite.same, Bool.false_eq_true] at k ⊢
  exact Endpoint.same_trans h k

theorem Tool.Keyed.same_refl {t : Tool} (h : t.Keyed) : t.same t = true := by
  have hsite : t.site.same t.site = true := by
    cases hs : t.site with
    | remote e => exact (h.endpoint e hs).same_refl
    | _ => rfl
  simp [Tool.same, hsite, h.slots.same_refl]

theorem Tool.Keyed.same_symm {t u : Tool} (ht : t.Keyed) (h : t.same u = true) :
    u.same t = true := by
  simp only [Tool.same, Bool.and_eq_true, beq_iff_eq] at h ⊢
  refine ⟨⟨?_, ht.slots.same_symm h.1.2⟩, h.2.symm⟩
  have hsite := h.1.1
  cases hs : t.site <;> cases hu : u.site <;>
    simp only [hs, hu, ToolSite.same, Bool.false_eq_true] at hsite ⊢
  exact (ht.endpoint _ hs).same_symm hsite

theorem Tool.same_trans {a b c : Tool} (h : a.same b = true) (k : b.same c = true) :
    a.same c = true := by
  simp only [Tool.same, Bool.and_eq_true, beq_iff_eq] at h k ⊢
  exact ⟨⟨ToolSite.same_trans h.1.1 k.1.1, Slots.same_trans h.1.2 k.1.2⟩, h.2.trans k.2⟩

theorem sameTexts_iff {a b : Dict String} :
    sameTexts a b = true ↔ a.length = b.length ∧ ∀ p ∈ a, ∃ s, b.get? p.1 = some s ∧ p.2 = s := by
  simp [sameTexts]

theorem sameTexts_refl {a : Dict String} (h : a.keys.Nodup) : sameTexts a a = true :=
  sameTexts_iff.mpr ⟨rfl, fun p hp => ⟨p.2, Dict.get?_of_mem h hp, rfl⟩⟩

theorem sameTexts_symm {a b : Dict String} (ha : a.keys.Nodup) (h : sameTexts a b = true) :
    sameTexts b a = true := by
  rw [sameTexts_iff] at *
  refine ⟨h.1.symm, Dict.mirrored (R := fun s t => t = s) ha h.1 fun p hp => ?_⟩
  obtain ⟨s, hs, rfl⟩ := h.2 p hp
  exact ⟨p.2, hs, rfl⟩

theorem sameTexts_trans {a b c : Dict String} (h : sameTexts a b = true)
    (k : sameTexts b c = true) : sameTexts a c = true := by
  rw [sameTexts_iff] at *
  refine ⟨h.1.trans k.1, fun p hp => ?_⟩
  obtain ⟨s, hs, rfl⟩ := h.2 p hp
  exact k.2 _ (Dict.mem_of_get? hs)

end Data

mutual
theorem Component.Keyed.same_refl {c : Component} (h : c.Keyed) : c.same c = true := by
  match c with
  | .mk _ _ _ _ metadata kind =>
    exact Component.same_iff.mpr ⟨rfl, rfl, rfl, h.1.sameDict_refl, Kind.Keyed.same_refl h.2⟩
termination_by structural c
theorem Kind.Keyed.same_refl {k : Kind} (h : k.Keyed) : k.same k = true := by
  match k with
  | .modelConfig c =>
    rw [Kind.same]
    exact ModelConfig.Keyed.same_refl h
  | .tool t =>
    rw [Kind.same]
    exact Tool.Keyed.same_refl h
  | .agent l _ ts _ s =>
    simp only [Kind.same, Component.Keyed.same_refl h.1, keyedComponents_refl h.2.1,
      h.2.2.same_refl, BEq.rfl, Bool.and_self]
  | .swarm f rs =>
    simp only [Kind.same, Component.Keyed.same_refl h.1, keyedPairs_refl h.2, Bool.and_self]
  | .managerWorkers m ws =>
    simp only [Kind.same, Component.Keyed.same_refl h.1, keyedComponents_refl h.2, Bool.and_self]
  | .flow n ns cs ds s =>
    simp only [Kind.same, Component.Keyed.same_refl h.1, keyedComponents_refl h.2.1,
      keyedComponents_refl h.2.2.1, keyedComponents_refl h.2.2.2.1, h.2.2.2.2.same_refl,
      Bool.and_self]
  | .node r s =>
    simp only [Kind.same, NodeRole.Keyed.same_refl h.1, h.2.same_refl, Bool.and_self]
  | .controlFlowEdge f _ t =>
    simp only [Kind.same, Component.Keyed.same_refl h.1, Component.Keyed.same_refl h.2, BEq.rfl,
      Bool.and_self]
  | .dataFlowEdge s _ d _ =>
    simp only [Kind.same, Component.Keyed.same_refl h.1, Component.Keyed.same_refl h.2, BEq.rfl,
      Bool.and_self]
  | .extension t fs =>
    simp only [Kind.same, BEq.rfl, Bool.true_and]
    exact sameFields_iff.mpr fun f hf =>
      ⟨f.2, Dict.get?_of_mem h.1 hf, keyedFields_refl h.2 f hf⟩
termination_by structural k
theorem NodeRole.Keyed.same_refl {r : NodeRole} (h : r.Keyed) : r.same r = true := by
  match r with
  | .start | .finish _ => simp [NodeRole.same]
  | .llm c _ =>
    simp only [NodeRole.same, Component.Keyed.same_refl (c := c) h, BEq.rfl, Bool.and_self]
  | .tool c | .agent c | .flow c =>
    rw [NodeRole.same]
    exact Component.Keyed.same_refl h
  | .branching m =>
    rw [NodeRole.same]
    exact sameTexts_refl h
termination_by structural r
theorem Value.Keyed.same_refl {v : Value} (h : v.Keyed) : v.same v = true := by
  match v with
  | .data t =>
    rw [Value.same]
    exact Tree.Proper.same_refl h
  | .component c =>
    rw [Value.same]
    exact Component.Keyed.same_refl h
  | .property p =>
    rw [Value.same]
    exact Schema.Proper.same_refl h
  | .list vs =>
    rw [Value.same]
    exact keyedValues_refl h
  | .map d =>
    simp only [Value.same, BEq.rfl, Bool.true_and]
    exact sameFields_iff.mpr fun f hf =>
      ⟨f.2, Dict.get?_of_mem h.1 hf, keyedFields_refl h.2 f hf⟩
termination_by structural v
theorem keyedComponents_refl {cs : List Component} (h : keyedComponents cs) :
    sameComponents cs cs = true := by
  match cs with
  | [] => simp [sameComponents]
  | c :: rest =>
    simp only [sameComponents, Component.Keyed.same_refl h.1, keyedComponents_refl h.2,
      Bool.and_self]
termination_by structural cs
theorem keyedPairs_refl {ps : List (Component × Component)} (h : keyedPairs ps) :
    samePairs ps ps = true := by
  match ps with
  | [] => simp [samePairs]
  | (c, d) :: rest =>
    simp only [samePairs, Component.Keyed.same_refl h.1, Component.Keyed.same_refl h.2.1,
      keyedPairs_refl h.2.2, Bool.and_self]
termination_by structural ps
theorem keyedValues_refl {vs : List Value} (h : keyedValues vs) : sameValues vs vs = true := by
  match vs with
  | [] => simp [sameValues]
  | v :: rest =>
    simp only [sameValues, Value.Keyed.same_refl h.1, keyedValues_refl h.2, Bool.and_self]
termination_by structural vs
theorem keyedFields_refl {fs : List (String × Value)} (h : keyedFields fs) :
    ∀ f ∈ fs, f.2.same f.2 = true := by
  match fs with
  | [] => simp
  | (_, v) :: rest =>
    exact List.forall_mem_cons.mpr ⟨Value.Keyed.same_refl h.1, keyedFields_refl h.2⟩
termination_by structural fs
end

/-- Fields that are all in another bag of as many fields, with equal values, are matched from there. -/
theorem keyedFields_mirrored {fs gs : Dict Value} (hkeys : fs.keys.Nodup)
    (hlen : fs.length = gs.length) (h : sameFields fs gs = true)
    (hsymm : ∀ f ∈ fs, ∀ v, f.2.same v = true → v.same f.2 = true) :
    sameFields gs fs = true := by
  refine sameFields_iff.mpr
    (Dict.mirrored (R := fun v u => u.same v = true) hkeys hlen fun f hf => ?_)
  obtain ⟨u, hu, hfu⟩ := sameFields_iff.mp h f hf
  exact ⟨u, hu, hsymm f hf u hfu⟩

mutual
theorem Component.Keyed.same_symm {c d : Component} (hc : c.Keyed) (h : c.same d = true) :
    d.same c = true := by
  match c with
  | .mk _ _ _ _ metadata kind =>
    obtain ⟨hid, hname, hdescription, hmetadata, hkind⟩ := Component.same_iff.mp h
    exact Component.same_iff.mpr ⟨hid.symm, hname.symm, hdescription.symm,
      hc.1.sameDict_symm hmetadata, Kind.Keyed.same_symm hc.2 hkind⟩
termination_by structural c
theorem Kind.Keyed.same_symm {k l : Kind} (hk : k.Keyed) (h : k.same l = true) :
    l.same k = true := by
  match k with
  | .modelConfig c =>
    cases l <;> simp only [Kind.same, Bool.false_eq_true] at h ⊢
    exact ModelConfig.Keyed.same_symm hk h
  | .tool t =>
    cases l <;> simp only [Kind.same, Bool.false_eq_true] at h ⊢
    exact Tool.Keyed.same_symm hk h
  | .agent c _ ts _ s =>
    cases l <;> simp only [Kind.same, Bool.false_eq_true, Bool.and_eq_true, beq_iff_eq] at h ⊢
    obtain ⟨⟨⟨⟨hc, hp⟩, hts⟩, hhu⟩, hs⟩ := h
    exact ⟨⟨⟨⟨Component.Keyed.same_symm hk.1 hc, hp.symm⟩, keyedComponents_symm hk.2.1 hts⟩,
      hhu.symm⟩, hk.2.2.same_symm hs⟩
  | .swarm f rs =>
    cases l <;> simp only [Kind.same, Bool.false_eq_true, Bool.and_eq_true] at h ⊢
    exact ⟨Component.Keyed.same_symm hk.1 h.1, keyedPairs_symm hk.2 h.2⟩
  | .managerWorkers m ws =>
    cases l <;> simp only [Kind.same, Bool.false_eq_true, Bool.and_eq_true] at h ⊢
    exact ⟨Component.Keyed.same_symm hk.1 h.1, keyedComponents_symm hk.2 h.2⟩
  | .flow n ns cs ds s =>
    cases l <;> simp only [Kind.same, Bool.false_eq_true, Bool.and_eq_true] at h ⊢
    obtain ⟨⟨⟨⟨hn, hns⟩, hcs⟩, hds⟩, hs⟩ := h
    exact ⟨⟨⟨⟨Component.Keyed.same_symm hk.1 hn, keyedComponents_symm hk.2.1 hns⟩,
      keyedComponents_symm hk.2.2.1 hcs⟩, keyedComponents_symm hk.2.2.2.1 hds⟩,
      hk.2.2.2.2.same_symm hs⟩
  | .node r s =>
    cases l <;> simp only [Kind.same, Bool.false_eq_true, Bool.and_eq_true] at h ⊢
    exact ⟨NodeRole.Keyed.same_symm hk.1 h.1, hk.2.same_symm h.2⟩
  | .controlFlowEdge f _ t =>
    cases l <;> simp only [Kind.same, Bool.false_eq_true, Bool.and_eq_true, beq_iff_eq] at h ⊢
    obtain ⟨⟨hf, hb⟩, ht⟩ := h
    exact ⟨⟨Component.Keyed.same_symm hk.1 hf, hb.symm⟩, Component.Keyed.same_symm hk.2 ht⟩
  | .dataFlowEdge s _ d _ =>
    cases l <;> simp only [Kind.same, Bool.false_eq_true, Bool.and_eq_true, beq_iff_eq] at h ⊢
    obtain ⟨⟨⟨hs, ho⟩, hd⟩, hi⟩ := h
    exact ⟨⟨⟨Component.Keyed.same_symm hk.1 hs, ho.symm⟩, Component.Keyed.same_symm hk.2 hd⟩,
      hi.symm⟩
  | .extension t fs =>
    cases l <;> simp only [Kind.same, Bool.false_eq_true, Bool.and_eq_true, beq_iff_eq] at h ⊢
    obtain ⟨⟨ht, hlen⟩, hfs⟩ := h
    exact ⟨⟨ht.symm, hlen.symm⟩, keyedFields_mirrored hk.1 hlen hfs (keyedFields_symm hk.2)⟩
termination_by structural k
theorem NodeRole.Keyed.same_symm {r q : NodeRole} (hr : r.Keyed) (h : r.same q = true) :
    q.same r = true := by
  match r with
  | .start | .finish _ => cases q <;> simp_all [NodeRole.same]
  | .llm c _ =>
    cases q <;> simp only [NodeRole.same, Bool.false_eq_true, Bool.and_eq_true,
      beq_iff_eq] at h ⊢
    exact ⟨Component.Keyed.same_symm hr h.1, h.2.symm⟩
  | .tool c | .agent c | .flow c =>
    cases q <;> simp only [NodeRole.same, Bool.false_eq_true] at h ⊢
    exact Component.Keyed.same_symm hr h
  | .branching m =>
    cases q <;> simp only [NodeRole.same, Bool.false_eq_true] at h ⊢
    exact sameTexts_symm hr h
termination_by structural r
theorem Value.Keyed.same_symm {v u : Value} (hv : v.Keyed) (h : v.same u = true) :
    u.same v = true := by
  match v with
  | .data t =>
    cases u <;> simp only [Value.same, Bool.false_eq_true] at h ⊢
    exact Tree.Proper.same_symm hv h
  | .component c =>
    cases u <;> simp only [Value.same, Bool.false_eq_true] at h ⊢
    exact Component.Keyed.same_symm hv h
  | .property p =>
    cases u <;> simp only [Value.same, Bool.false_eq_true] at h ⊢
    exact Schema.Proper.same_symm hv h
  | .list vs =>
    cases u <;> simp only [Value.same, Bool.false_eq_true] at h ⊢
    exact keyedValues_symm hv h
  | .map d =>
    cases u <;> simp only [Value.same, Bool.false_eq_true, Bool.and_eq_true, beq_iff_eq] at h ⊢
    exact ⟨h.1.symm, keyedFields_mirrored hv.1 h.1 h.2 (keyedFields_symm hv.2)⟩
termination_by structural v
theorem keyedComponents_symm {cs ds : List Component} (hc : keyedComponents cs)
    (h : sameComponents cs ds = true) : sameComponents ds cs = true := by
  match cs with
  | [] => cases ds <;> simp_all [sameComponents]
  | c :: rest =>
    cases ds <;> simp only [sameComponents, Bool.false_eq_true, Bool.and_eq_true] at h ⊢
    exact ⟨Component.Keyed.same_symm hc.1 h.1, keyedComponents_symm hc.2 h.2⟩
termination_by structural cs
theorem keyedPairs_symm {ps qs : List (Component × Component)} (hp : keyedPairs ps)
    (h : samePairs ps qs = true) : samePairs qs ps = true := by
  match ps with
  | [] => cases qs <;> simp_all [samePairs]
  | (c, d) :: rest =>
    obtain _ | ⟨⟨_, _⟩, _⟩ := qs <;>
      simp only [samePairs, Bool.false_eq_true, Bool.and_eq_true] at h ⊢
    exact ⟨⟨Component.Keyed.same_symm hp.1 h.1.1, Component.Keyed.same_symm hp.2.1 h.1.2⟩,
      keyedPairs_symm hp.2.2 h.2⟩
termination_by structural ps
theorem keyedValues_symm {vs us : List Value} (hv : keyedValues vs)
    (h : sameValues vs us = true) : sameValues us vs = true := by
  match vs with
  | [] => cases us <;> simp_all [sameValues]
  | v :: rest =>
    cases us <;> simp only [sameValues, Bool.false_eq_true, Bool.and_eq_true] at h ⊢
    exact ⟨Value.Keyed.same_symm hv.1 h.1, keyedValues_symm hv.2 h.2⟩
termination_by structural vs
theorem keyedFields_symm {fs : List (String × Value)} (hf : keyedFields fs) :
    ∀ f ∈ fs, ∀ v, f.2.same v = true → v.same f.2 = true := by
  match fs with
  | [] => simp
  | (_, v) :: rest =>
    exact List.forall_mem_cons.mpr
      ⟨fun u => Value.Keyed.same_symm hf.1, keyedFields_symm hf.2⟩
termination_by structural fs
end

mutual
theorem Component.same_trans {a b c : Component} (h : a.same b = true) (k : b.same c = true) :
    a.same c = true := by
  match a with
  | .mk _ _ _ _ metadata kind =>
    obtain ⟨hid, hname, hdescription, hmetadata, hkind⟩ := Component.same_iff.mp h
    obtain ⟨kid, kname, kdescription, kmetadata, kkind⟩ := Component.same_iff.mp k
    exact Component.same_iff.mpr ⟨hid.trans kid, hname.trans kname,
      hdescription.trans kdescription, Tree.sameDict_trans hmetadata kmetadata,
      Kind.same_trans hkind kkind⟩
termination_by structural a
theorem Kind.same_trans {a b c : Kind} (h : a.same b = true) (k : b.same c = true) :
    a.same c = true := by
  match a with
  | .modelConfig _ =>
    cases b <;> simp only [Kind.same, Bool.false_eq_true] at h
    cases c <;> simp only [Kind.same, Bool.false_eq_true] at k ⊢
    exact ModelConfig.same_trans h k
  | .tool _ =>
    cases b <;> simp only [Kind.same, Bool.false_eq_true] at h
    cases c <;> simp only [Kind.same, Bool.false_eq_true] at k ⊢
    exact Tool.same_trans h k
  | .agent _ _ _ _ _ =>
    cases b <;> simp only [Kind.same, Bool.false_eq_true, Bool.and_eq_true, beq_iff_eq] at h
    cases c <;> simp only [Kind.same, Bool.false_eq_true, Bool.and_eq_true, beq_iff_eq] at k ⊢
    obtain ⟨⟨⟨⟨hc, hp⟩, hts⟩, hhu⟩, hs⟩ := h
    obtain ⟨⟨⟨⟨kc, kp⟩, kts⟩, khu⟩, ks⟩ := k
    exact ⟨⟨⟨⟨Component.same_trans hc kc, hp.trans kp⟩, sameComponents_trans hts kts⟩,
      hhu.trans khu⟩, Slots.same_trans hs ks⟩
  | .swarm _ _ =>
    cases b <;> simp only [Kind.same, Bool.false_eq_true, Bool.and_eq_true] at h
    cases c <;> simp only [Kind.same, Bool.false_eq_true, Bool.and_eq_true] at k ⊢
    exact ⟨Component.same_trans h.1 k.1, samePairs_trans h.2 k.2⟩
  | .managerWorkers _ _ =>
    cases b <;> simp only [Kind.same, Bool.false_eq_true, Bool.and_eq_true] at h
    cases c <;> simp only [Kind.same, Bool.false_eq_true, Bool.and_eq_true] at k ⊢
    exact ⟨Component.same_trans h.1 k.1, sameComponents_trans h.2 k.2⟩
  | .flow _ _ _ _ _ =>
    cases b <;> simp only [Kind.same, Bool.false_eq_true, Bool.and_eq_true] at h
    cases c <;> simp only [Kind.same, Bool.false_eq_true, Bool.and_eq_true] at k ⊢
    obtain ⟨⟨⟨⟨hn, hns⟩, hcs⟩, hds⟩, hs⟩ := h
    obtain ⟨⟨⟨⟨kn, kns⟩, kcs⟩, kds⟩, ks⟩ := k
    exact ⟨⟨⟨⟨Component.same_trans hn kn, sameComponents_trans hns kns⟩,
      sameComponents_trans hcs kcs⟩, sameComponents_trans hds kds⟩, Slots.same_trans hs ks⟩
  | .node _ _ =>
    cases b <;> simp only [Kind.same, Bool.false_eq_true, Bool.and_eq_true] at h
    cases c <;> simp only [Kind.same, Bool.false_eq_true, Bool.and_eq_true] at k ⊢
    exact ⟨NodeRole.same_trans h.1 k.1, Slots.same_trans h.2 k.2⟩
  | .controlFlowEdge _ _ _ =>
    cases b <;> simp only [Kind.same, Bool.false_eq_true, Bool.and_eq_true, beq_iff_eq] at h
    cases c <;> simp only [Kind.same, Bool.false_eq_true, Bool.and_eq_true, beq_iff_eq] at k ⊢
    exact ⟨⟨Component.same_trans h.1.1 k.1.1, h.1.2.trans k.1.2⟩, Component.same_trans h.2 k.2⟩
  | .dataFlowEdge _ _ _ _ =>
    cases b <;> simp only [Kind.same, Bool.false_eq_true, Bool.and_eq_true, beq_iff_eq] at h
    cases c <;> simp only [Kind.same, Bool.false_eq_true, Bool.and_eq_true, beq_iff_eq] at k ⊢
    obtain ⟨⟨⟨hs, ho⟩, hd⟩, hi⟩ := h
    obtain ⟨⟨⟨ks, ko⟩, kd⟩, ki⟩ := k
    exact ⟨⟨⟨Component.same_trans hs ks, ho.trans ko⟩, Component.same_trans hd kd⟩, hi.trans ki⟩
  | .extension _ _ =>
    cases b <;> simp only [Kind.same, Bool.false_eq_true, Bool.and_eq_true, beq_iff_eq] at h
    cases c <;> simp only [Kind.same, Bool.false_eq_true, Bool.and_eq_true, beq_iff_eq] at k ⊢
    obtain ⟨⟨ht, hlen⟩, hfs⟩ := h
    obtain ⟨⟨kt, klen⟩, kfs⟩ := k
    exact ⟨⟨ht.trans kt, hlen.trans klen⟩, sameFields_trans hfs kfs⟩
termination_by structural a
theorem NodeRole.same_trans {a b c : NodeRole} (h : a.same b = true) (k : b.same c = true) :
    a.same c = true := by
  match a with
  | .start | .finish _ => cases b <;> cases c <;> simp_all [NodeRole.same]
  | .llm _ _ =>
    cases b <;> simp only [NodeRole.same, Bool.false_eq_true, Bool.and_eq_true, beq_iff_eq] at h
    cases c <;> simp only [NodeRole.same, Bool.false_eq_true, Bool.and_eq_true,
      beq_iff_eq] at k ⊢
    exact ⟨Component.same_trans h.1 k.1, h.2.trans k.2⟩
  | .tool _ | .agent _ | .flow _ =>
    cases b <;> simp only [NodeRole.same, Bool.false_eq_true] at h
    cases c <;> simp only [NodeRole.same, Bool.false_eq_true] at k ⊢
    exact Component.same_trans h k
  | .branching _ =>
    cases b <;> simp only [NodeRole.same, Bool.false_eq_true] at h
    cases c <;> simp only [NodeRole.same, Bool.false_eq_true] at k ⊢
    exact sameTexts_trans h k
termination_by structural a
theorem Value.same_trans {a b c : Value} (h : a.same b = true) (k : b.same c = true) :
    a.same c = true := by
  match a with
  | .data _ =>
    cases b <;> simp only [Value.same, Bool.false_eq_true] at h
    cases c <;> simp only [Value.same, Bool.false_eq_true] at k ⊢
    exact Tree.same_trans h k
  | .component _ =>
    cases b <;> simp only [Value.same, Bool.false_eq_true] at h
    cases c <;> simp only [Value.same, Bool.false_eq_true] at k ⊢
    exact Component.same_trans h k
  | .property _ =>
    cases b <;> simp only [Value.same, Bool.false_eq_true] at h
    cases c <;> simp only [Value.same, Bool.false_eq_true] at k ⊢
    exact Schema.same_trans h k
  | .list _ =>
    cases b <;> simp only [Value.same, Bool.false_eq_true] at h
    cases c <;> simp only [Value.same, Bool.false_eq_true] at k ⊢
    exact sameValues_trans h k
  | .map _ =>
    cases b <;> simp only [Value.same, Bool.false_eq_true, Bool.and_eq_true, beq_iff_eq] at h
    cases c <;> simp only [Value.same, Bool.false_eq_true, Bool.and_eq_true, beq_iff_eq] at k ⊢
    exact ⟨h.1.trans k.1, sameFields_trans h.2 k.2⟩
termination_by structural a
theorem sameComponents_trans {as bs cs : List Component} (h : sameComponents as bs = true)
    (k : sameComponents bs cs = true) : sameComponents as cs = true := by
  match as with
  | [] => cases bs <;> cases cs <;> simp_all [sameComponents]
  | _ :: _ =>
    cases bs <;> simp only [sameComponents, Bool.false_eq_true, Bool.and_eq_true] at h
    cases cs <;> simp only [sameComponents, Bool.false_eq_true, Bool.and_eq_true] at k ⊢
    exact ⟨Component.same_trans h.1 k.1, sameComponents_trans h.2 k.2⟩
termination_by structural as
theorem samePairs_trans {as bs cs : List (Component × Component)} (h : samePairs as bs = true)
    (k : samePairs bs cs = true) : samePairs as cs = true := by
  match as with
  | [] => cases bs <;> cases cs <;> simp_all [samePairs]
  | (_, _) :: _ =>
    obtain _ | ⟨⟨_, _⟩, _⟩ := bs <;>
      simp only [samePairs, Bool.false_eq_true, Bool.and_eq_true] at h
    obtain _ | ⟨⟨_, _⟩, _⟩ := cs <;>
      simp only [samePairs, Bool.false_eq_true, Bool.and_eq_true] at k ⊢
    exact ⟨⟨Component.same_trans h.1.1 k.1.1, Component.same_trans h.1.2 k.1.2⟩,
      samePairs_trans h.2 k.2⟩
termination_by structural as
theorem sameValues_trans {as bs cs : List Value} (h : sameValues as bs = true)
    (k : sameValues bs cs = true) : sameValues as cs = true := by
  match as with
  | [] => cases bs <;> cases cs <;> simp_all [sameValues]
  | _ :: _ =>
    cases bs <;> simp only [sameValues, Bool.false_eq_true, Bool.and_eq_true] at h
    cases cs <;> simp only [sameValues, Bool.false_eq_true, Bool.and_eq_true] at k ⊢
    exact ⟨Value.same_trans h.1 k.1, sameValues_trans h.2 k.2⟩
termination_by structural as
theorem sameFields_trans {as bs cs : List (String × Value)} (h : sameFields as bs = true)
    (k : sameFields bs cs = true) : sameFields as cs = true := by
  match as with
  | [] => simp [sameFields]
  | (_, _) :: _ =>
    obtain ⟨⟨y, hy, hxy⟩, h⟩ := List.forall_mem_cons.mp (sameFields_iff.mp h)
    obtain ⟨z, hz, hyz⟩ := sameFields_iff.mp k _ (Dict.mem_of_get? hy)
    simp only [sameFields, hz, Bool.and_eq_true]
    exact ⟨Value.same_trans hxy hyz, sameFields_trans (sameFields_iff.mpr h) k⟩
termination_by structural as
end

mutual
theorem Value.Keyed.proper {v : Value} (h : v.Keyed) : v.Proper := by
  match v with
  | .data _ | .component _ | .property _ => trivial
  | .list vs => exact keyedValues_proper h
  | .map d => exact ⟨h.1, keyedFields_proper h.2⟩
termination_by structural v
theorem keyedValues_proper {vs : List Value} (h : keyedValues vs) : properItems vs := by
  match vs with
  | [] => trivial
  | v :: rest => exact ⟨Value.Keyed.proper h.1, keyedValues_proper h.2⟩
termination_by structural vs
theorem keyedFields_proper {fs : List (String × Value)} (h : keyedFields fs) :
    properEntries fs := by
  match fs with
  | [] => trivial
  | (_, v) :: rest => exact ⟨Value.Keyed.proper h.1, keyedFields_proper h.2⟩
termination_by structural fs
end

mutual
theorem Value.Keyed.components {v : Value} (h : v.Keyed) : ∀ c ∈ v.components, c.Keyed := by
  match v with
  | .data _ | .property _ => simp [Value.components]
  | .component c =>
    rw [Value.components, List.forall_mem_singleton]
    exact h
  | .list vs => exact keyedValues_components h
  | .map d => exact keyedFields_components h.2
termination_by structural v
theorem keyedValues_components {vs : List Value} (h : keyedValues vs) :
    ∀ c ∈ Value.componentsOfList vs, c.Keyed := by
  match vs with
  | [] => simp [Value.componentsOfList]
  | v :: rest =>
    exact List.forall_mem_append.mpr ⟨Value.Keyed.components h.1, keyedValues_components h.2⟩
termination_by structural vs
theorem keyedFields_components {fs : List (String × Value)} (h : keyedFields fs) :
    ∀ c ∈ Value.componentsOfEntries fs, c.Keyed := by
  match fs with
  | [] => simp [Value.componentsOfEntries]
  | (_, v) :: rest =>
    exact List.forall_mem_append.mpr ⟨Value.Keyed.components h.1, keyedFields_components h.2⟩
termination_by structural fs
end

theorem keyedComponents_iff {cs : List Component} :
    keyedComponents cs ↔ ∀ c ∈ cs, c.Keyed := by
  induction cs with
  | nil => simp [keyedComponents]
  | cons c rest ih => simp [keyedComponents, ih]

theorem keyedPairs_iff {ps : List (Component × Component)} :
    keyedPairs ps ↔ ∀ c ∈ Kind.heldPairs ps, c.Keyed := by
  induction ps with
  | nil => simp [keyedPairs, Kind.heldPairs]
  | cons p rest ih => simp [keyedPairs, ih, Kind.heldPairs]

theorem Kind.Keyed.held {k : Kind} (h : k.Keyed) : ∀ c ∈ heldComponents k.fields, c.Keyed := by
  cases k with
  | modelConfig _ => simp
  | tool _ => simp
  | agent l _ ts _ _ =>
    simpa only [held_agent, List.forall_mem_cons] using ⟨h.1, keyedComponents_iff.mp h.2.1⟩
  | swarm f rs =>
    simpa only [held_swarm, List.forall_mem_cons] using ⟨h.1, keyedPairs_iff.mp h.2⟩
  | managerWorkers m ws =>
    simpa only [held_managerWorkers, List.forall_mem_cons] using ⟨h.1, keyedComponents_iff.mp h.2⟩
  | flow n ns cs ds _ =>
    simp only [held_flow, List.forall_mem_cons, List.forall_mem_append, ← keyedComponents_iff]
    exact ⟨h.1, h.2.1, h.2.2.1, h.2.2.2.1⟩
  | node r _ =>
    have hr : r.Keyed := h.1
    rw [held_node, held_role]
    cases r with
    | start | finish _ | branching _ => simp [heldByRole]
    | _ => exact List.forall_mem_singleton.mpr hr
  | controlFlowEdge f _ t =>
    simp only [held_controlFlowEdge, List.forall_mem_cons]
    exact ⟨h.1, h.2, by simp⟩
  | dataFlowEdge s _ d _ =>
    simp only [held_dataFlowEdge, List.forall_mem_cons]
    exact ⟨h.1, h.2, by simp⟩
  | extension _ fs => exact keyedFields_components h.2

namespace Component.Keyed
variable {c d : Component}

theorem kind (h : c.Keyed) : c.kind.Keyed := by
  cases c
  exact h.2

theorem proper (h : c.Keyed) : c.Proper := by
  by_cases hb : c.kind.isBuiltin = true
  · exact ⟨Kind.nodup_fields hb, Kind.proper_fields hb⟩
  · have hk := h.kind
    unfold Component.Proper
    cases hc : c.kind with
    | extension _ fs =>
      rw [hc] at hk
      exact ⟨hk.1, keyedFields_proper hk.2⟩
    | _ => simp [hc, Kind.isBuiltin] at hb

theorem reaches {kids : Component → List Component}
    (hkids : ∀ c, ∀ d ∈ kids c, d ∈ c.children) (hc : c.Keyed) (h : Reaches kids c d) :
    d.Keyed := by
  obtain ⟨i, p⟩ := h
  induction p with
  | here => exact hc
  | step hd _ ih => exact ih (hc.kind.held _ (hkids _ _ hd))

end Component.Keyed
end AgentGraph
