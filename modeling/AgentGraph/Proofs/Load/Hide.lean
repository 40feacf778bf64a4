import AgentGraph.Proofs.BuiltinGraph
/-!
# What the policy takes from a component

A field that is kept out of a document comes back with the value that an absent field is read as.
Below the builtin policy these are the keys and dialects of language models, the confirmation and the
secret headers of tools, and whether an agent asks its user; at every depth of the graph.
-/
namespace AgentGraph
open List (Forall₂)

/-- A value that is seen, or else the one that an absent field is read as. -/
def seenOr {α : Type} (seen : Bool) (a default : α) : α := if seen then a else default

@[simp] theorem seenOr_true {α : Type} (a default : α) : seenOr true a default = a := rfl

/-- What may be left out stands for a default. -/
theorem seenOr_getD {α : Type} (seen : Bool) (a default : α) :
    (seenOr seen (some a) none).getD default = seenOr seen a default := by
  cases seen <;> rfl

section Hide
variable (shows : String → String → Bool)

/-- A configuration without the fields that are not shown. -/
def ModelConfig.hide (c : ModelConfig) : ModelConfig :=
  { c with
    apiKey := seenOr (shows c.provider.componentType "apiKey") c.apiKey none
    apiType := seenOr (shows c.provider.componentType "apiType") c.apiType none }

/-- A place of a tool without the headers that are not shown. -/
def ToolSite.hide : ToolSite → ToolSite
  | server => server
  | client => client
  | remote e => remote
      { e with sensitiveHeaders := seenOr (shows "RemoteTool" "sensitiveHeaders") e.sensitiveHeaders [] }

/-- A tool without the fields that are not shown. -/
def Tool.hide (t : Tool) : Tool :=
  { t with
    site := t.site.hide shows
    requiresConfirmation :=
      seenOr (shows t.componentType "requiresConfirmation") t.requiresConfirmation false }

mutual
/-- A component without the fields that are not shown, at every depth. -/
def Component.hide : Component → Component
  | .mk handle id name description metadata kind =>
    .mk handle id name description metadata kind.hide
/-- A kind without the fields that are not shown. -/
def Kind.hide : Kind → Kind
  | .modelConfig c => .modelConfig (c.hide shows)
  | .tool t => .tool (t.hide shows)
  | .agent l p ts h s =>
    .agent l.hide p (hideList ts) (seenOr (shows "Agent" "humanInTheLoop") h true) s
  | .swarm f rs => .swarm f.hide (hidePairs rs)
  | .managerWorkers m ws => .managerWorkers m.hide (hideList ws)
  | .flow n ns cs ds s => .flow n.hide (hideList ns) (hideList cs) (hideList ds) s
  | .node role s => .node role.hide s
  | .controlFlowEdge f b t => .controlFlowEdge f.hide b t.hide
  | .dataFlowEdge s o d i => .dataFlowEdge s.hide o d.hide i
  | .extension type fields => .extension type fields
/-- The role of a node without the fields that are not shown. -/
def NodeRole.hide : NodeRole → NodeRole
  | .start => .start
  | .finish b => .finish b
  | .llm l p => .llm l.hide p
  | .tool c => .tool c.hide
  | .agent c => .agent c.hide
  | .flow c => .flow c.hide
  | .branching m => .branching m
/-- Components without the fields that are not shown. -/
def hideList : List Component → List Component
  | [] => []
  | c :: rest => c.hide :: hideList rest
/-- Pairs of components without the fields that are not shown. -/
def hidePairs : List (Component × Component) → List (Component × Component)
  | [] => []
  | (a, b) :: rest => (a.hide, b.hide) :: hidePairs rest
end

end Hide

variable {shows : String → String → Bool} {R : Component → Component → Prop} {c d : Component}

theorem hideList_eq (cs : List Component) : hideList shows cs = cs.map (Component.hide shows) := by
  induction cs with
  | nil => rw [hideList, List.map_nil]
  | cons c rest ih => rw [hideList, List.map_cons, ih]

@[simp] theorem Component.id_hide (c : Component) : (c.hide shows).id = c.id := by
  cases c; simp [hide, id]

@[simp] theorem Component.name_hide (c : Component) : (c.hide shows).name = c.name := by
  cases c; simp [hide, name]

@[simp] theorem Component.description_hide (c : Component) :
    (c.hide shows).description = c.description := by
  cases c; simp [hide, description]

@[simp] theorem Component.metadata_hide (c : Component) :
    (c.hide shows).metadata = c.metadata := by
  cases c; simp [hide, metadata]

@[simp] theorem Component.kind_hide (c : Component) : (c.hide shows).kind = c.kind.hide shows := by
  cases c; simp [hide, kind]

theorem Component.slots_hide (c : Component) : (c.hide shows).kind.slots? = c.kind.slots? := by
  rw [kind_hide]
  cases c.kind <;> simp [Kind.hide, Kind.slots?, Tool.hide]

/-- A field of a configuration that is shown stays. -/
theorem ModelConfig.mem_fields_hide {c : ModelConfig} {f : String × Value} (hf : f ∈ c.fields)
    (hshows : shows c.provider.componentType f.1 = true) : f ∈ (c.hide shows).fields := by
  have hkey : ∀ {name : String} {text : Option String}, f ∈ optionalText name text →
      f ∈ optionalText name (seenOr (shows c.provider.componentType name) text none) := by
    intro name text hf
    have hname := (Kind.keys_optionalText name text).subset (Dict.mem_keys_of_mem hf)
    rw [List.mem_singleton] at hname
    rwa [← hname, hshows, hname]
  simp only [fields, hide, List.mem_append] at hf ⊢
  exact hf.imp_left (Or.imp (Or.imp_right hkey) hkey)

/-- A field of a tool that is shown stays. -/
theorem Tool.mem_fields_hide {t : Tool} {f : String × Value} (hf : f ∈ t.fields)
    (hshows : shows t.componentType f.1 = true) : f ∈ (t.hide shows).fields := by
  have hconfirmation : f ∈ [("requiresConfirmation", Value.bool t.requiresConfirmation)] →
      f ∈ [("requiresConfirmation", Value.bool (t.hide shows).requiresConfirmation)] := by
    intro hf
    obtain rfl := List.mem_singleton.mp hf
    rw [hide, hshows, seenOr_true]
    exact hf
  obtain ⟨site, slots, confirmation⟩ := t
  simp only [fields, hide, List.mem_append] at hf ⊢
  refine hf.imp (Or.imp_right fun hsite => ?_) hconfirmation
  cases site with
  | server => exact hsite
  | client => exact hsite
  | remote e =>
    simp only [ToolSite.hide, Endpoint.fields, List.mem_cons, List.not_mem_nil, or_false] at hsite ⊢
    refine hsite.imp_right (Or.imp_right (Or.imp_right (Or.imp_left ?_)))
    rintro rfl
    rw [show shows "RemoteTool" "sensitiveHeaders" = true from hshows, seenOr_true]

/-- The role of a node as it is read back, where components are read back in a relation. -/
inductive NodeRole.Restored (R : Component → Component → Prop) : NodeRole → NodeRole → Prop
  | start : Restored R .start .start
  | finish (b : Option String) : Restored R (.finish b) (.finish b)
  | llm {l l' : Component} (p : String) : R l l' → Restored R (.llm l p) (.llm l' p)
  | tool {c c' : Component} : R c c' → Restored R (.tool c) (.tool c')
  | agent {c c' : Component} : R c c' → Restored R (.agent c) (.agent c')
  | flow {c c' : Component} : R c c' → Restored R (.flow c) (.flow c')
  | branching (m : Dict String) : Restored R (.branching m) (.branching m)

/-- What is related to the components of pairs comes in pairs. -/
theorem Kind.pairs_of_heldPairs {R : Component → Component → Prop}
    {pairs : List (Component × Component)} {cs : List Component}
    (h : Forall₂ R (Kind.heldPairs pairs) cs) :
    ∃ pairs', cs = Kind.heldPairs pairs' ∧
      Forall₂ (fun p q => R p.1 q.1 ∧ R p.2 q.2) pairs pairs' := by
  induction pairs generalizing cs with
  | nil =>
    cases h
    exact ⟨[], rfl, .nil⟩
  | cons p rest ih =>
    obtain ⟨a, tail, ha, htail, rfl⟩ := List.forall₂_cons_left_iff.mp h
    obtain ⟨b, later, hb, hlater, rfl⟩ := List.forall₂_cons_left_iff.mp htail
    obtain ⟨others, rfl, hothers⟩ := ih hlater
    exact ⟨(a, b) :: others, rfl, .cons ⟨ha, hb⟩ hothers⟩

/-- A kind as it is read back: the same data except for what is not shown, and for each component
one that is in a relation to it. -/
inductive Kind.Restored (shows : String → String → Bool) (R : Component → Component → Prop) :
    Kind → Kind → Prop
  | modelConfig (c : ModelConfig) : Restored shows R (.modelConfig c) (.modelConfig (c.hide shows))
  | tool (t : Tool) : Restored shows R (.tool t) (.tool (t.hide shows))
  | agent {l l' : Component} {ts ts' : List Component} (p : String) (h : Bool) (s : Slots) :
      R l l' → Forall₂ R ts ts' →
      Restored shows R (.agent l p ts h s)
        (.agent l' p ts' (seenOr (shows "Agent" "humanInTheLoop") h true) s)
  | swarm {f f' : Component} {rs rs' : List (Component × Component)} :
      R f f' → Forall₂ (fun p q => R p.1 q.1 ∧ R p.2 q.2) rs rs' →
      Restored shows R (.swarm f rs) (.swarm f' rs')
  | managerWorkers {m m' : Component} {ws ws' : List Component} :
      R m m' → Forall₂ R ws ws' → Restored shows R (.managerWorkers m ws) (.managerWorkers m' ws')
  | flow {n n' : Component} {ns ns' cs cs' ds ds' : List Component} (s : Slots) :
      R n n' → Forall₂ R ns ns' → Forall₂ R cs cs' → Forall₂ R ds ds' →
      Restored shows R (.flow n ns cs ds s) (.flow n' ns' cs' ds' s)
  | node {r r' : NodeRole} (s : Slots) : NodeRole.Restored R r r' →
      Restored shows R (.node r s) (.node r' s)
  | controlFlowEdge {f f' t t' : Component} (b : Option String) : R f f' → R t t' →
      Restored shows R (.controlFlowEdge f b t) (.controlFlowEdge f' b t')
  | dataFlowEdge {s s' d d' : Component} (o i : String) : R s s' → R d d' →
      Restored shows R (.dataFlowEdge s o d i) (.dataFlowEdge s' o d' i)

theorem NodeRole.Restored.held {r r' : NodeRole} (h : NodeRole.Restored R r r') :
    Forall₂ R (heldComponents r.fields) (heldComponents r'.fields) := by
  cases h with
  | finish b => cases b <;> simp [fields, heldComponents, Value.componentsOfEntries, optionalText]
  | _ => simp [fields, heldComponents, Value.componentsOfEntries, *]

/-- Data of a role comes back as it is. -/
theorem NodeRole.Restored.data {r r' : NodeRole} {field : String} {t : Tree}
    (h : NodeRole.Restored R r r') (ht : (field, .data t) ∈ r.fields) :
    (field, .data t) ∈ r'.fields := by
  cases h with
  | start => exact ht
  | finish b => exact ht
  | branching m => exact ht
  | llm p hl => simpa [fields] using ht
  | _ => simp [fields] at ht

theorem NodeRole.Restored.mono {R' : Component → Component → Prop} {r r' : NodeRole}
    (h : NodeRole.Restored R r r') (himp : ∀ c c', R c c' → R' c c') :
    NodeRole.Restored R' r r' := by
  cases h with
  | start => exact .start
  | finish b => exact .finish b
  | llm p hl => exact .llm p (himp _ _ hl)
  | tool hc => exact .tool (himp _ _ hc)
  | agent hc => exact .agent (himp _ _ hc)
  | flow hc => exact .flow (himp _ _ hc)
  | branching m => exact .branching m

namespace Kind.Restored
variable {k k' l : Kind}

theorem mono {R' : Component → Component → Prop} (h : Restored shows R k k')
    (himp : ∀ c c', R c c' → R' c c') : Restored shows R' k k' := by
  have hall : ∀ {cs cs'}, Forall₂ R cs cs' → Forall₂ R' cs cs' := fun hcs => hcs.imp himp
  cases h with
  | modelConfig c => exact .modelConfig c
  | tool t => exact .tool t
  | agent p h s hl hts => exact .agent p h s (himp _ _ hl) (hall hts)
  | swarm hf hrs =>
    exact .swarm (himp _ _ hf) (hrs.imp fun _ _ hpq => ⟨himp _ _ hpq.1, himp _ _ hpq.2⟩)
  | managerWorkers hm hws => exact .managerWorkers (himp _ _ hm) (hall hws)
  | flow s hn hns hcs hds => exact .flow s (himp _ _ hn) (hall hns) (hall hcs) (hall hds)
  | node s hr => exact .node s (hr.mono himp)
  | controlFlowEdge b hf ht => exact .controlFlowEdge b (himp _ _ hf) (himp _ _ ht)
  | dataFlowEdge o i hs hd => exact .dataFlowEdge o i (himp _ _ hs) (himp _ _ hd)

theorem slots (h : Restored shows R k k') : k'.slots? = k.slots? := by
  cases h <;> rfl

theorem heldPairs {rs rs' : List (Component × Component)}
    (h : Forall₂ (fun p q => R p.1 q.1 ∧ R p.2 q.2) rs rs') :
    Forall₂ R (Kind.heldPairs rs) (Kind.heldPairs rs') :=
  List.rel_flatMap h fun _ _ hpq => .cons hpq.1 (.cons hpq.2 .nil)

/-- What a kind that was read back holds stands for what the kind held, place by place. -/
theorem held (h : Restored shows R k k') :
    Forall₂ R (heldComponents k.fields) (heldComponents k'.fields) := by
  cases h with
  | modelConfig c => simp
  | tool t => simp
  | agent p h s hl hts => simp [hl, hts]
  | swarm hf hrs => simp [hf, heldPairs hrs]
  | managerWorkers hm hws => simp [hm, hws]
  | flow s hn hns hcs hds => simpa [hn] using List.rel_append hns (List.rel_append hcs hds)
  | node s hr => simpa using hr.held
  | controlFlowEdge b hf ht => simp [hf, ht]
  | dataFlowEdge o i hs hd => simp [hs, hd]

/-- Builtin kinds are read back as such. -/
theorem isBuiltin (h : Restored shows R k k') : k.isBuiltin = true ∧ k'.isBuiltin = true := by
  cases h <;> exact ⟨rfl, rfl⟩

/-- Data in a field that is shown comes back as it is. -/
theorem data {field : String} {t : Tree} (h : Restored shows R k k')
    (ht : (field, .data t) ∈ k.fields) (hshows : shows k.componentType field = true) :
    (field, .data t) ∈ k'.fields := by
  cases h with
  | modelConfig c => exact ModelConfig.mem_fields_hide ht hshows
  | tool t => exact Tool.mem_fields_hide ht hshows
  | agent p h s hl hts =>
    rw [componentType] at hshows
    simp only [fields, List.mem_append, List.mem_cons, Prod.mk.injEq, Value.componentList,
      reduceCtorEq, and_false, false_or, List.not_mem_nil, or_false] at ht ⊢
    refine ht.imp_right (Or.imp_right ?_)
    rintro ⟨rfl, hvalue⟩
    rw [hshows, seenOr_true]
    exact ⟨rfl, hvalue⟩
  | swarm hf hrs => simp [fields] at ht
  | managerWorkers hm hws => simp [fields, Value.componentList] at ht
  | flow s hn hns hcs hds => simpa [fields, Value.componentList] using ht
  | node s hr =>
    simp only [fields, List.mem_append] at ht ⊢
    exact ht.imp_right hr.data
  | controlFlowEdge b hf ht => simpa [fields] using ht
  | dataFlowEdge o i hs hd => simpa [fields] using ht

theorem get?_data {field : String} {t : Tree} (h : Restored shows R k k')
    (ht : (field, .data t) ∈ k.fields) (hshows : shows k.componentType field = true) :
    Dict.get? k'.fields field = some (.data t) :=
  Dict.get?_of_mem (nodup_fields h.isBuiltin.2) (h.data ht hshows)

end Kind.Restored

theorem ModelConfig.same_hide {a b : ModelConfig} (h : a.same b = true) :
    (a.hide shows).same (b.hide shows) = true := by
  simp only [same, Bool.and_eq_true, beq_iff_eq] at h
  obtain ⟨⟨⟨⟨⟨hprovider, hm⟩, hu⟩, hk⟩, ht⟩, hp⟩ := h
  simp [same, hide, hprovider, hm, hu, hk, ht, hp]

theorem ToolSite.same_hide {a b : ToolSite} (h : a.same b = true) :
    (a.hide shows).same (b.hide shows) = true := by
  cases a <;> cases b <;> simp only [same, Bool.false_eq_true] at h <;> try rfl
  simp only [Endpoint.same, Bool.and_eq_true] at h
  simp only [same, hide, Endpoint.same, Bool.and_eq_true, h, true_and, and_true]
  unfold seenOr
  split
  · exact h.1.2
  · rfl

theorem Tool.same_hide {a b : Tool} (h : a.same b = true) :
    (a.hide shows).same (b.hide shows) = true := by
  have htype : a.componentType = b.componentType := Kind.same_componentType (k := .tool a)
    (l := .tool b) (by rwa [Kind.same])
  simp only [same, Bool.and_eq_true, beq_iff_eq] at h
  simp [same, hide, htype, ToolSite.same_hide h.1.1, h.1.2, h.2]

/-- A component that stands for one of two equal components stands for the other. -/
def Carries (shows : String → String → Bool) (R : Component → Component → Prop)
    (ds : List Component) : Prop :=
  ∀ c c' d, d ∈ ds → R c c' → c.same d = true → c'.same (d.hide shows) = true

theorem Carries.mono {ds es : List Component} (h : Carries shows R es) (hds : ∀ d ∈ ds, d ∈ es) :
    Carries shows R ds := fun c c' d hd => h c c' d (hds d hd)

theorem same_hideList {cs cs' ds : List Component} (hR : Carries shows R ds)
    (h : Forall₂ R cs cs') (hs : sameComponents cs ds = true) :
    sameComponents cs' (hideList shows ds) = true := by
  induction h generalizing ds with
  | nil =>
    cases ds with
    | nil => simp [sameComponents, hideList]
    | cons d ds => simp [sameComponents] at hs
  | @cons c c' cs cs' hc _ ih =>
    cases ds with
    | nil => simp [sameComponents] at hs
    | cons d ds =>
      simp only [sameComponents, Bool.and_eq_true] at hs
      simp only [hideList, sameComponents, Bool.and_eq_true]
      exact ⟨hR c c' d List.mem_cons_self hc hs.1,
        ih (hR.mono fun e he => List.mem_cons_of_mem _ he) hs.2⟩

theorem same_hidePairs {ps ps' qs : List (Component × Component)}
    (hR : Carries shows R (Kind.heldPairs qs))
    (h : Forall₂ (fun p q => R p.1 q.1 ∧ R p.2 q.2) ps ps') (hs : samePairs ps qs = true) :
    samePairs ps' (hidePairs shows qs) = true := by
  induction h generalizing qs with
  | nil =>
    cases qs with
    | nil => simp [samePairs, hidePairs]
    | cons q qs => simp [samePairs] at hs
  | @cons p p' ps ps' hp _ ih =>
    cases qs with
    | nil => simp [samePairs] at hs
    | cons q qs =>
      obtain ⟨a, b⟩ := p
      obtain ⟨a', b'⟩ := p'
      obtain ⟨a'', b''⟩ := q
      simp only [samePairs, Bool.and_eq_true] at hs
      simp only [hidePairs, samePairs, Bool.and_eq_true]
      refine ⟨⟨hR _ _ _ ?_ hp.1 hs.1.1, hR _ _ _ ?_ hp.2 hs.1.2⟩, ih (hR.mono ?_) hs.2⟩
      · simp [Kind.heldPairs]
      · simp [Kind.heldPairs]
      · intro e he
        exact List.mem_append_right _ he

theorem NodeRole.Restored.same {r r' q : NodeRole} (h : NodeRole.Restored R r r')
    (hR : Carries shows R (heldComponents q.fields)) (hs : r.same q = true) :
    r'.same (q.hide shows) = true := by
  cases h <;> cases q <;>
    simp only [NodeRole.same, Bool.false_eq_true, Bool.and_eq_true, beq_iff_eq] at hs <;>
    simp only [NodeRole.hide, NodeRole.same, Bool.and_eq_true, beq_iff_eq]
  · exact hs
  · rename_i hl _ _
    exact ⟨hR _ _ _ (by simp [fields, heldComponents, Value.componentsOfEntries]) hl hs.1, hs.2⟩
  all_goals try exact hs
  all_goals
    rename_i hc _
    exact hR _ _ _ (by simp [fields, heldComponents, Value.componentsOfEntries]) hc hs

/-- A kind that was read back equals every equal of the kind that was written, without what is not
shown. -/
theorem Kind.Restored.same {k k' l : Kind} (h : Kind.Restored shows R k k')
    (hR : Carries shows R (heldComponents l.fields)) (hs : k.same l = true) :
    k'.same (l.hide shows) = true := by
  cases h with
  | modelConfig c =>
    cases l <;> simp only [Kind.same, Bool.false_eq_true] at hs
    simpa only [Kind.hide, Kind.same] using ModelConfig.same_hide hs
  | tool t =>
    cases l <;> simp only [Kind.same, Bool.false_eq_true] at hs
    simpa only [Kind.hide, Kind.same] using Tool.same_hide hs
  | agent p h s hl hts =>
    cases l <;> simp only [Kind.same, Bool.false_eq_true, Bool.and_eq_true, beq_iff_eq] at hs
    obtain ⟨⟨⟨⟨hc, rfl⟩, hss⟩, rfl⟩, hslots⟩ := hs
    simp only [held_agent] at hR
    simp [Kind.hide, Kind.same, hslots, hR _ _ _ List.mem_cons_self hl hc,
      same_hideList (hR.mono fun d hd => List.mem_cons_of_mem _ hd) hts hss]
  | swarm hf hrs =>
    cases l <;> simp only [Kind.same, Bool.false_eq_true, Bool.and_eq_true] at hs
    simp only [held_swarm] at hR
    simp [Kind.hide, Kind.same, hR _ _ _ List.mem_cons_self hf hs.1,
      same_hidePairs (hR.mono fun d hd => List.mem_cons_of_mem _ hd) hrs hs.2]
  | managerWorkers hm hws =>
    cases l <;> simp only [Kind.same, Bool.false_eq_true, Bool.and_eq_true] at hs
    simp only [held_managerWorkers] at hR
    simp [Kind.hide, Kind.same, hR _ _ _ List.mem_cons_self hm hs.1,
      same_hideList (hR.mono fun d hd => List.mem_cons_of_mem _ hd) hws hs.2]
  | flow s hn hns hcs hds =>
    cases l <;> simp only [Kind.same, Bool.false_eq_true, Bool.and_eq_true] at hs
    obtain ⟨⟨⟨⟨hsn, hsns⟩, hscs⟩, hsds⟩, hslots⟩ := hs
    simp only [held_flow] at hR
    simp [Kind.hide, Kind.same, hslots, hR _ _ _ List.mem_cons_self hn hsn,
      same_hideList (hR.mono fun d hd => by simp [hd]) hns hsns,
      same_hideList (hR.mono fun d hd => by simp [hd]) hcs hscs,
      same_hideList (hR.mono fun d hd => by simp [hd]) hds hsds]
  | node s hr =>
    cases l <;> simp only [Kind.same, Bool.false_eq_true, Bool.and_eq_true] at hs
    simp only [held_node] at hR
    simp [Kind.hide, Kind.same, hs.2, hr.same hR hs.1]
  | controlFlowEdge b hf ht =>
    cases l <;> simp only [Kind.same, Bool.false_eq_true, Bool.and_eq_true, beq_iff_eq] at hs
    obtain ⟨⟨hsf, rfl⟩, hst⟩ := hs
    simp only [held_controlFlowEdge] at hR
    simp [Kind.hide, Kind.same, hR _ _ _ (by simp) hf hsf, hR _ _ _ (by simp) ht hst]
  | dataFlowEdge o i hsrc hd =>
    cases l <;> simp only [Kind.same, Bool.false_eq_true, Bool.and_eq_true, beq_iff_eq] at hs
    obtain ⟨⟨⟨hss, rfl⟩, hsd⟩, rfl⟩ := hs
    simp only [held_dataFlowEdge] at hR
    simp [Kind.hide, Kind.same, hR _ _ _ (by simp) hsrc hss, hR _ _ _ (by simp) hd hsd]

end AgentGraph
