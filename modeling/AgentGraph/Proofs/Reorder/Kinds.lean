import AgentGraph.Proofs.Load.Keeps
import AgentGraph.Proofs.Reorder.Record
import AgentGraph.Proofs.Reorder.Twins
/-!
# Kinds of records with their keys in another order

A kind reads its fields by name and in a fixed order, whatever the order of the keys in the record. So
two readers that give twins for the same uses are asked for them in the same order, and the kinds that
are made of the answers are twins.
-/
namespace AgentGraph
open List (Forall₂)

/-- Two readers of which the second gives related components where the first gives any, asked for
mappings that pass a test and for these with their keys in another order. -/
structure Reader.Agrees (I : LoadState → LoadState → Prop) (R : Component → Component → Prop)
    (H : Dict Tree → Prop) (reader reader' : Reader) : Prop where
  naming : reader.naming = reader'.naming
  nested : ∀ use use', H use → (Tree.map use).Proper → Dict.Reordered Tree.Reordered use use' →
    Dict.get? use reader.naming.protocol.componentRef = none →
    Shadows I R (reader.nested use) (reader'.nested use')
  referenced : ∀ id, Shadows I R (reader.referenced id) (reader'.referenced id)

namespace Reader
variable {I : LoadState → LoadState → Prop} {R : Component → Component → Prop}
  {H : Dict Tree → Prop} {reader reader' : Reader} {r r' : Record} {field : String}

section Component
variable (hr : reader.Agrees I R H reader')
include hr

theorem shadows_componentOf {value value' : Tree} (h : ∀ use ∈ value.mappings, H use)
    (hvalue : value.Proper ∧ value.Reordered value') :
    Shadows I R (reader.componentOf r field value) (reader'.componentOf r' field value') := by
  cases value with
  | map use =>
    obtain ⟨use', rfl, huse⟩ := Tree.reordered_map.mp hvalue.2
    have hrel := Tree.rel_get? huse hvalue.1 reader.naming.protocol.componentRef
    simp only [componentOf, ← hr.naming]
    cases href : Dict.get? use reader.naming.protocol.componentRef with
    | none =>
      rw [href] at hrel
      generalize Dict.get? use' reader.naming.protocol.componentRef = found at hrel
      cases hrel
      exact hr.nested use use' (h use List.mem_cons_self) hvalue.1 huse href
    | some target =>
      rw [href] at hrel
      generalize Dict.get? use' reader.naming.protocol.componentRef = found at hrel
      cases hrel with
      | some htarget =>
        simp only
        rw [← huse.length_eq]
        split
        · exact .throw
        · cases target with
          | string id =>
            obtain rfl := (Tree.reordered_scalar rfl).mp htarget.2.2
            exact hr.referenced id
          | _ => exact .throw
  | _ => exact .throw

end Component

/-- If single questions are answered alike, all questions are. -/
theorem shadows_askFor {questions questions' : List (String × List Tree)}
    (h : Forall₂ (fun q q' => Forall₂ (fun value value' =>
        Shadows I R (reader.componentOf r q.1 value) (reader'.componentOf r' q'.1 value')) q.2 q'.2)
      questions questions') :
    Shadows I (Forall₂ (Forall₂ R)) (reader.askFor r questions) (reader'.askFor r' questions') := by
  have hvalues {field field' : String} {values values' : List Tree}
      (h : Forall₂ (fun value value' => Shadows I R (reader.componentOf r field value)
        (reader'.componentOf r' field' value')) values values') :
      Shadows I (Forall₂ R) (reader.componentsOf r field values)
        (reader'.componentsOf r' field' values') := by
    induction h with
    | nil => exact .pure .nil
    | cons hvalue _ ih =>
      exact hvalue.bind fun c c' hc => ih.bind fun cs cs' hcs => .pure (.cons hc hcs)
  induction h with
  | nil => exact .pure .nil
  | cons hq _ ih =>
    exact (hvalues hq).bind fun found found' hfound => ih.bind fun later later' hlater =>
      .pure (.cons hfound hlater)

end Reader

namespace Builtin.Shape
variable {shape : Shape} {value value' : Tree}

theorem pairs_reordered {pairs : List (Tree × Tree)} {items : List Tree}
    (h : Forall₂ Tree.Reordered (pairs.map fun p => .list [p.1, p.2]) items) :
    ∃ others : List (Tree × Tree), (items = others.map fun p => .list [p.1, p.2]) ∧
      Forall₂ (fun p q => p.1.Reordered q.1 ∧ p.2.Reordered q.2) pairs others := by
  induction pairs generalizing items with
  | nil =>
    cases h
    exact ⟨[], rfl, .nil⟩
  | cons p rest ih =>
    obtain ⟨pair, later, hpair, hlater, rfl⟩ := List.forall₂_cons_left_iff.mp h
    obtain ⟨both, rfl, hboth⟩ := Tree.reordered_list.mp hpair
    obtain ⟨first, tail, hfirst, htail, rfl⟩ := List.forall₂_cons_left_iff.mp hboth
    obtain ⟨second, none, hsecond, hnone, rfl⟩ := List.forall₂_cons_left_iff.mp htail
    cases hnone
    obtain ⟨others, rfl, hothers⟩ := ih hlater
    exact ⟨(first, second) :: others, rfl, .cons ⟨hfirst, hsecond⟩ hothers⟩

/-- A value that is as its field wants it is so with its keys in another order, and the values that
are read of it correspond. -/
theorem fits_reordered (hfits : shape.Fits value) (h : value.Reordered value') :
    shape.Fits value' ∧ Forall₂ Tree.Reordered (shape.values value) (shape.values value') := by
  cases shape with
  | one => exact ⟨trivial, .cons h .nil⟩
  | list =>
    obtain ⟨items, rfl⟩ := hfits
    obtain ⟨items', rfl, hitems⟩ := Tree.reordered_list.mp h
    exact ⟨⟨items', rfl⟩, hitems⟩
  | pairs =>
    obtain ⟨pairs, rfl⟩ := hfits
    obtain ⟨items', rfl, hitems⟩ := Tree.reordered_list.mp h
    obtain ⟨others, rfl, hpairs⟩ := pairs_reordered hitems
    refine ⟨⟨others, rfl⟩, ?_⟩
    rw [values, values, pairItems_pairs, pairItems_pairs]
    exact List.rel_flatMap hpairs fun _ _ hpq => .cons hpq.1 (.cons hpq.2 .nil)

end Builtin.Shape

theorem Record.Reordered.valuesAt {r r' : Record} {field : String} (h : r.Reordered r')
    (hfits : r.FitsAt field) : r'.FitsAt field ∧
      Forall₂ (fun t t' => t.Proper ∧ t.Reordered t') (r.valuesAt field) (r'.valuesAt field) := by
  have hrel := rel_get? h field
  cases hvalue : r.get? field with
  | none =>
    cases hvalue' : r'.get? field with
    | none =>
      rw [valuesAt_none hvalue, valuesAt_none hvalue']
      exact ⟨fitsAt_none hvalue', .nil⟩
    | some value' =>
      rw [hvalue, hvalue'] at hrel
      cases hrel
  | some value =>
    cases hvalue' : r'.get? field with
    | none =>
      rw [hvalue, hvalue'] at hrel
      cases hrel
    | some value' =>
      rw [hvalue, hvalue'] at hrel
      obtain ⟨hproper, hreordered⟩ := Option.rel_some_some.mp hrel
      obtain ⟨hfits', hvalues⟩ :=
        Builtin.Shape.fits_reordered ((fitsAt_some hvalue).mp hfits) hreordered
      rw [valuesAt_some hvalue, valuesAt_some hvalue']
      have hall : ∀ t ∈ (Builtin.shapeOf field).values value, t.Proper :=
        Builtin.Shape.forall_values (fun _ hitems => Tree.proper_list.mp hitems) hproper
      exact ⟨(fitsAt_some hvalue').mpr hfits', (List.forall₂_and_left _ _).mpr ⟨hall, hvalues⟩⟩

namespace Builtin
variable {ρ : Nat → Nat → Prop} {I : LoadState → LoadState → Prop} {H : Dict Tree → Prop}
  {reader reader' : Reader} {r r' : Record}

section Data
variable (hfields : r.Reordered r')
include hfields

theorem MakesConfig.twins {c : ModelConfig} (h : MakesConfig r c) :
    ∃ c', MakesConfig r' c' ∧ c'.provider = c.provider ∧ c.same c' = true := by
  have hurl : Carried (· = ·)
      (if c.provider.requiresUrl then some <$> r.requiredText "url" else r.optionalText "url")
      (if c.provider.requiresUrl then some <$> r'.requiredText "url" else r'.optionalText "url") := by
    split
    · exact (Record.carried_requiredText hfields _).map fun _ _ heq => congrArg some heq
    · exact Record.carried_optionalText hfields _
  obtain ⟨_, hurl', rfl⟩ := hurl _ h.url
  obtain ⟨_, hmodel', rfl⟩ := Record.carried_requiredText hfields _ _ h.modelId
  obtain ⟨_, hkey', rfl⟩ := Record.carried_optionalText hfields _ _ h.apiKey
  obtain ⟨_, htype', rfl⟩ := Record.carried_optionalText hfields _ _ h.apiType
  obtain ⟨parameters, hparameters', hrel⟩ := Record.carried_mapping? hfields _ _ h.parameters
  refine ⟨{ c with parameters }, ⟨hurl', hmodel', hkey', htype', hparameters'⟩, rfl, ?_⟩
  simp only [ModelConfig.same, BEq.rfl, Bool.true_and]
  generalize c.parameters = given at hrel
  cases hrel with
  | none => rfl
  | some hde => exact Tree.Reordered.sameDict hde.2 hde.1

theorem MakesEndpoint.twins {e : Endpoint} (h : MakesEndpoint r e) :
    ∃ e', MakesEndpoint r' e' ∧ e.same e' = true := by
  obtain ⟨method, hmethod, hget⟩ := h.httpMethod
  obtain ⟨_, hurl', rfl⟩ := Record.carried_requiredText hfields _ _ h.url
  obtain ⟨_, hmethod', rfl⟩ := Record.carried_optionalText hfields _ _ hmethod
  obtain ⟨headers, hheaders', hh⟩ := Record.carried_mapping hfields _ _ h.apiHeaders
  obtain ⟨sensitive, hsensitive', hs⟩ := Record.carried_mapping hfields _ _ h.sensitiveHeaders
  obtain ⟨data, hdata', hd⟩ := Record.carried_mapping hfields _ _ h.data
  refine ⟨⟨e.url, e.httpMethod, headers, sensitive, data⟩,
    ⟨hurl', ⟨method, hmethod', hget⟩, hheaders', hsensitive', hdata'⟩, ?_⟩
  simp only [Endpoint.same, BEq.rfl, Bool.true_and, Bool.and_eq_true]
  exact ⟨⟨Tree.Reordered.sameDict hh.2 hh.1, Tree.Reordered.sameDict hs.2 hs.1⟩,
    Tree.Reordered.sameDict hd.2 hd.1⟩

theorem MakesSite.twins {site : ToolSite} (h : MakesSite r site) :
    ∃ site', MakesSite r' site' ∧ site.same site' = true := by
  cases h with
  | server htype => exact ⟨_, .server (hfields.type ▸ htype), rfl⟩
  | client htype => exact ⟨_, .client (hfields.type ▸ htype), rfl⟩
  | remote htype he =>
    obtain ⟨e', he', hsame⟩ := he.twins hfields
    exact ⟨_, .remote (hfields.type ▸ htype) he', hsame⟩

theorem MakesTool.twins {t : Tool} (h : MakesTool r t) :
    ∃ t', MakesTool r' t' ∧ (Kind.tool t).Twins ρ (.tool t') := by
  obtain ⟨asked, hasked, hconfirmation⟩ := h.confirmation
  obtain ⟨site', hsite', hsite⟩ := h.site.twins hfields
  obtain ⟨slots', hslots', hslots⟩ := Record.carried_slots hfields _ h.slots
  obtain ⟨_, hasked', rfl⟩ := Record.carried_optionalBool hfields _ _ hasked
  refine ⟨⟨site', slots', t.requiresConfirmation⟩, ⟨hsite', hslots', asked, hasked', hconfirmation⟩,
    .tool ?_ hslots⟩
  simp only [Tool.same, hsite, hslots.same, BEq.rfl, Bool.and_self]

end Data

theorem MakesRole.twins {answers answers' : List (List Component)} {role : NodeRole}
    {slots slots' : Slots} (hfields : r.Reordered r') (h : MakesRole r slots answers role)
    (hslots : slots.Twins slots')
    (hanswers : Forall₂ (Forall₂ (Component.Twins ρ)) answers answers') :
    ∃ role', MakesRole r' slots' answers' role' ∧
      (Kind.node role slots).Twins ρ (.node role' slots') := by
  have hstanding := Component.standing_twins (ρ := ρ)
  cases h with
  | start htype =>
    cases hanswers
    exact ⟨_, .start (hfields.type ▸ htype), .node (by rw [NodeRole.same]) .nil hslots⟩
  | finish htype hbranch =>
    cases hanswers
    obtain ⟨_, hbranch', rfl⟩ := Record.carried_optionalText hfields _ _ hbranch
    exact ⟨_, .finish (hfields.type ▸ htype) hbranch', .node (by simp [NodeRole.same]) .nil hslots⟩
  | llm htype hprompt hbuild =>
    obtain _ | ⟨_ | ⟨hc, ⟨⟩⟩, ⟨⟩⟩ := hanswers
    obtain ⟨_, hprompt', rfl⟩ := Record.carried_requiredText hfields _ _ hprompt
    exact ⟨_, .llm (hfields.type ▸ htype) hprompt' (hstanding.llmNode hc hbuild),
      .node (by simp [NodeRole.same, hc.same]) (.cons hc .nil) hslots⟩
  | tool htype hbuild =>
    obtain _ | ⟨_ | ⟨hc, ⟨⟩⟩, ⟨⟩⟩ := hanswers
    exact ⟨_, .tool (hfields.type ▸ htype) (hstanding.toolNode hc hbuild),
      .node (by simp [NodeRole.same, hc.same]) (.cons hc .nil) hslots⟩
  | agent htype hbuild =>
    obtain _ | ⟨_ | ⟨hc, ⟨⟩⟩, ⟨⟩⟩ := hanswers
    exact ⟨_, .agent (hfields.type ▸ htype) (hstanding.agentNode hc hbuild),
      .node (by simp [NodeRole.same, hc.same]) (.cons hc .nil) hslots⟩
  | flow htype hbuild =>
    obtain _ | ⟨_ | ⟨hc, ⟨⟩⟩, ⟨⟩⟩ := hanswers
    exact ⟨_, .flow (hfields.type ▸ htype) (hstanding.flowNode hc hbuild),
      .node (by simp [NodeRole.same, hc.same]) (.cons hc .nil) hslots⟩
  | branching htype hmapping =>
    cases hanswers
    obtain ⟨mapping', hmapping', hsame⟩ := Record.carried_textMapping hfields _ _ hmapping
    exact ⟨_, .branching (hfields.type ▸ htype) hmapping',
      .node (by rwa [NodeRole.same]) .nil hslots⟩

/-- Answers that are twins make twins, of a record with its keys in another order. -/
theorem Makes.twins {answers answers' : List (List Component)} {k : Kind} (hfields : r.Reordered r')
    (hk : Makes r answers k) (hanswers : Forall₂ (Forall₂ (Component.Twins ρ)) answers answers') :
    ∃ k', Makes r' answers' k' ∧ k.Twins ρ k' := by
  have hstanding := Component.standing_twins (ρ := ρ)
  cases hk with
  | modelConfig hprovider hconfig =>
    cases hanswers
    obtain ⟨c', hconfig', hsame, hcc⟩ := hconfig.twins hfields
    exact ⟨_, .modelConfig (hfields.type ▸ hsame ▸ hprovider) hconfig', .modelConfig hcc⟩
  | tool htool =>
    cases hanswers
    obtain ⟨t', htool', htt⟩ := htool.twins hfields
    exact ⟨_, .tool htool', htt⟩
  | agent htype hprompt hconfig hfits htools hslots hhuman =>
    obtain _ | ⟨_ | ⟨hc, ⟨⟩⟩, _ | ⟨hcs, ⟨⟩⟩⟩ := hanswers
    obtain ⟨_, hprompt', rfl⟩ := Record.carried_requiredText hfields _ _ hprompt
    obtain ⟨slots', hslots', hss⟩ := Record.carried_slots hfields _ hslots
    obtain ⟨_, hhuman', rfl⟩ := Record.carried_optionalBool hfields _ _ hhuman
    obtain ⟨hconfig', htools'⟩ := hstanding.agent hc hcs hconfig htools
    exact ⟨_, .agent (hfields.type ▸ htype) hprompt' hconfig' (hfields.valuesAt hfits).1 htools'
      hslots' hhuman', .agent hc hcs hss⟩
  | swarm htype hfits hbuild =>
    obtain _ | ⟨_ | ⟨hc, ⟨⟩⟩, _ | ⟨hcs, ⟨⟩⟩⟩ := hanswers
    obtain ⟨pairs', rfl, hps⟩ := Kind.pairs_of_heldPairs hcs
    exact ⟨_, .swarm (hfields.type ▸ htype) (hfields.valuesAt hfits).1
      (hstanding.swarm hc hps hbuild), .swarm hc hps⟩
  | managerWorkers htype hfits hbuild =>
    obtain _ | ⟨_ | ⟨hc, ⟨⟩⟩, _ | ⟨hcs, ⟨⟩⟩⟩ := hanswers
    exact ⟨_, .managerWorkers (hfields.type ▸ htype) (hfields.valuesAt hfits).1
      (hstanding.managerWorkers hc hcs hbuild), .managerWorkers hc hcs⟩
  | flow htype hnodes hlisted hcontrol hedges hdata hjoins hslots =>
    obtain _ | ⟨_ | ⟨hc, ⟨⟩⟩, _ | ⟨hns, _ | ⟨hcs, _ | ⟨hds, ⟨⟩⟩⟩⟩⟩ := hanswers
    obtain ⟨slots', hslots', hss⟩ := Record.carried_slots hfields _ hslots
    obtain ⟨hedges', hjoins'⟩ := hstanding.flowEdges hcs hds hedges hjoins
    exact ⟨_, .flow (hfields.type ▸ htype) (hfields.valuesAt hnodes).1
      (hstanding.flowNodes hc hns hlisted) (hfields.valuesAt hcontrol).1 hedges'
      (hfields.valuesAt hdata).1 hjoins' hslots', .flow hc hns hcs hds hss⟩
  | node htype hslots hrole =>
    obtain ⟨slots', hslots', hss⟩ := Record.carried_slots hfields _ hslots
    obtain ⟨role', hrole', hkk⟩ := hrole.twins hfields hss hanswers
    exact ⟨_, .node (hfields.type ▸ htype) hslots' hrole', hkk⟩
  | controlFlowEdge htype hsource htarget hbranch =>
    obtain _ | ⟨_ | ⟨hc, ⟨⟩⟩, _ | ⟨_ | ⟨hd, ⟨⟩⟩, ⟨⟩⟩⟩ := hanswers
    obtain ⟨_, hbranch', rfl⟩ := Record.carried_optionalText hfields _ _ hbranch
    obtain ⟨hsource', htarget'⟩ := hstanding.controlFlowEdge hc hd hsource htarget
    exact ⟨_, .controlFlowEdge (hfields.type ▸ htype) hsource' htarget' hbranch',
      .controlFlowEdge hc hd⟩
  | dataFlowEdge htype houtput hinput hbuild =>
    obtain _ | ⟨_ | ⟨hc, ⟨⟩⟩, _ | ⟨_ | ⟨hd, ⟨⟩⟩, ⟨⟩⟩⟩ := hanswers
    obtain ⟨_, houtput', rfl⟩ := Record.carried_requiredText hfields _ _ houtput
    obtain ⟨_, hinput', rfl⟩ := Record.carried_requiredText hfields _ _ hinput
    exact ⟨_, .dataFlowEdge (hfields.type ▸ htype) houtput' hinput'
      (hstanding.dataFlowEdge hc hd hbuild), .dataFlowEdge hc hd⟩

/-- Whatever its builtin type, a record is read alike with its keys in another order. -/
theorem shadows_read (hr : reader.Agrees I (Component.Twins ρ) H reader') (hfields : r.Reordered r')
    (h : StandsIn H r (componentFields r.componentType)) :
    Shadows I (Kind.Twins ρ) (read reader r) (read reader' r') := by
  rintro s t hst ⟨k, u⟩ hrun
  obtain ⟨answers, hasked, hk⟩ := read_ok_iff.mp hrun
  have hparts := Record.forall_parts Tree.mappings_list h
  have hquestions : Forall₂ (fun q q' => Forall₂ (fun value value' =>
      Shadows I (Component.Twins ρ) (reader.componentOf r q.1 value)
        (reader'.componentOf r' q'.1 value')) q.2 q'.2)
      (r.questions (componentFields r.componentType))
      (r'.questions (componentFields r.componentType)) := by
    rw [Record.questions, Record.questions, List.forall₂_map_left_iff, List.forall₂_map_right_iff,
      List.forall₂_same]
    intro field hfield
    have hvalues := (hfields.valuesAt (hk.fits field hfield)).2
    have hpart := hparts (field, r.valuesAt field) (List.mem_map_of_mem hfield)
    exact ((List.forall₂_and_left _ _).mpr ⟨hpart, hvalues⟩).imp fun value value' hboth =>
      Reader.shadows_componentOf hr hboth.1 hboth.2
  obtain ⟨⟨answers', u'⟩, hasked', hanswers, huu⟩ :=
    Reader.shadows_askFor hquestions s t hst _ hasked
  obtain ⟨k', hk', hkk⟩ := hk.twins hfields hanswers
  rw [hfields.type] at hasked'
  exact ⟨(k', u'), read_ok_iff.mpr ⟨answers', hasked', hk'⟩, hkk, huu⟩

end Builtin
end AgentGraph
