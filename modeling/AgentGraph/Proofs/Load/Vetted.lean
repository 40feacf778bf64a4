import AgentGraph.Proofs.Clean
import AgentGraph.Proofs.Load.Findings
import AgentGraph.Proofs.Load.Keeps
import AgentGraph.Proofs.Registry
import AgentGraph.Proofs.WellFormed
/-!
# What every component of a load satisfies

The components at hand while a document is loaded are those that were built, those that an id stands
for, and those that were supplied. A property of components that every new component has, if the
components it uses have it, is a property of all of them. A new component is well formed and clean,
since its fields were checked and were read from a document that was freed of reserved keys.
-/
namespace AgentGraph

/-- A kind that is well formed and clean and uses only components that pass a test. -/
structure Kind.Vetted (A : Component → Prop) (k : Kind) : Prop where
  held : ∀ c ∈ heldComponents k.fields, A c
  wellFormed : k.WellFormed
  clean : k.Clean

/-- A test that a component passes if its kind is vetted and its metadata is clean. -/
def PassedByVetted (A : Component → Prop) : Prop :=
  ∀ handle id name description metadata kind, (Tree.map metadata).Unreserved → kind.Vetted A →
    A (.mk handle id name description metadata kind)

namespace Load
variable {α : Type} {A : Component → Prop}

/-- The components that ids stand for pass a test. -/
def Known (A : Component → Prop) (s : LoadState) : Prop :=
  ∀ id c, s.resolution.get? id = some (.resolved c) → A c

/-- A run that meets only components that pass a test, and that gives what fits if it ends well. -/
abbrev Obtains (A : Component → Prop) (m : LoadM α) (Q : α → Prop) : Prop :=
  Preserves (Known A) (fun _ => True) m Q

theorem Known.put {s : LoadState} (h : Known A s) {id : String} {r : Resolution}
    (hr : ∀ c, r = .resolved c → A c) :
    Known A { s with resolution := s.resolution.put id r } := by
  intro other c hother
  rw [Dict.get?_put] at hother
  split at hother
  · exact hr c (Option.some.inj hother)
  · exact h other c hother

theorem obtains_setResolution {id : String} {r : Resolution} (hr : ∀ c, r = .resolved c → A c) :
    Obtains A (setResolution id r) fun _ => True :=
  fun _ hs => ⟨trivial, hs.put hr⟩

theorem obtains_freshId : Obtains A freshId fun _ => True := fun _ hs => ⟨trivial, hs⟩

theorem obtains_freshHandle : Obtains A freshHandle fun _ => True := fun _ hs => ⟨trivial, hs⟩

end Load

open Load

/-- A tree below one without reserved keys has none. -/
theorem unreserved_of_below {t u : Tree} (h : t.Unreserved) (hu : t.Below u) : u.Unreserved := by
  induction hu with
  | refl => exact h
  | @tail b c _ hc ih =>
    cases b with
    | list items => exact Tree.keysAll_list.mp ih c hc
    | map entries =>
      obtain ⟨pair, hpair, rfl⟩ := List.mem_map.mp hc
      exact (Tree.keysAll_map.mp ih pair hpair).2
    | _ => cases hc

/-- A reader that gives components that pass a test, asked for mappings without reserved keys. -/
structure Reader.Vets (A : Component → Prop) (reader : Reader) : Prop where
  nested : ∀ use, (Tree.map use).Unreserved → Obtains A (reader.nested use) A
  referenced : ∀ id, Obtains A (reader.referenced id) A

namespace Reader
variable {A : Component → Prop} {reader : Reader} {r : Record} {field : String}

section Component
variable (hr : reader.Vets A)
include hr

theorem obtains_componentOf {value : Tree} (h : value.Unreserved) :
    Obtains A (reader.componentOf r field value) A := by
  cases value with
  | map entries =>
    simp only [componentOf]
    split
    · exact hr.nested entries h
    · split
      · exact .throw _
      · split
        · exact hr.referenced _
        · exact .throw _
  | _ => exact .throw _

end Component

theorem obtains_bagOf (hr : reader.Vets A) {fields : List (String × Tree)} {bag : Dict Value}
    (h : ∀ f ∈ fields, isReservedKey f.1 = false ∧ f.2.Unreserved)
    (hclean : Value.cleanEntries bag) (hheld : ∀ c ∈ heldComponents bag, A c) :
    Obtains A (reader.bagOf r fields bag) fun fs =>
      Value.cleanEntries fs ∧ ∀ c ∈ heldComponents fs, A c := by
  have hasked : ∀ q ∈ bagQuestions reader.naming fields, ∀ value ∈ q.2, value.Unreserved :=
    List.forall_mem_map.mpr fun f hf => List.forall_mem_map.mpr fun use huse =>
      unreserved_of_below (h f hf).2 (Tree.below_of_outermost huse)
  refine ((asks_bagOf fields bag).preserves (fun _ _ => trivial) fun q hq value hvalue =>
    obtains_componentOf hr (hasked q hq value hvalue)).mono ?_
  rintro result ⟨answers, hanswers, values, hvalues, rfl⟩
  have hvalue := hvalues.clean h
  refine ⟨Value.cleanEntries_iff.mpr
    (Dict.forall_mem_merge (Value.cleanEntries_iff.mp hclean) hvalue), ?_⟩
  refine forall_held_merge hheld fun c hc => ?_
  rw [hvalues.held] at hc
  obtain ⟨_, -, hc⟩ := exists_left (forall₂_flatten hanswers) hc
  exact hc

end Reader

namespace Builtin
variable {A : Component → Prop} {reader : Reader} {r : Record}

theorem sound_properties {field : String} {ps : List Property} (h : r.properties field = .ok ps) :
    ∀ p ∈ ps, p.Sound := by
  unfold Record.properties at h
  split at h
  · obtain rfl := Except.ok.inj h
    simp
  · rename_i items _
    cases hread : Property.ofTrees items with
    | error e =>
      rw [hread] at h
      cases h
    | ok qs =>
      rw [hread] at h
      obtain rfl := Except.ok.inj h
      exact Property.sound_ofTrees hread
  · cases h

/-- Inputs and outputs that were read are well formed and clean. -/
theorem sound_slots {slots : Slots} (h : r.slots = .ok slots) : slots.WellFormed ∧ slots.Clean := by
  obtain ⟨inputs, hinputs, h⟩ := bind_ok h
  obtain ⟨outputs, houtputs, h⟩ := bind_ok h
  have hsound := List.forall_mem_append.mpr ⟨sound_properties hinputs, sound_properties houtputs⟩
  cases hof : Slots.of inputs outputs with
  | error e =>
    rw [hof] at h
    cases h
  | ok found =>
    rw [hof] at h
    obtain rfl := Except.ok.inj h
    have hsame := hof
    obtain ⟨_, -, hsame⟩ := bind_ok hsame
    obtain ⟨_, -, hsame⟩ := bind_ok hsame
    refine ⟨Slots.wellFormed_of hof hsound, ?_⟩
    rw [← Except.ok.inj hsame]
    exact fun p hp => (hsound p hp).clean

section
variable (h : (Tree.map r.fields).Unreserved)
include h

theorem MakesConfig.sound {c : ModelConfig} (hc : MakesConfig r c) :
    (Kind.modelConfig c).WellFormed ∧ (Kind.modelConfig c).Clean := by
  constructor
  · have hurl := hc.url
    split at hurl
    · right
      obtain ⟨text, -, htext⟩ := bind_ok hurl
      rw [← Except.ok.inj htext]
      exact Option.some_ne_none text
    · rename_i hfixed
      left
      cases hprovider : c.provider with
      | openAi => rfl
      | _ =>
        rw [hprovider] at hfixed
        exact absurd rfl hfixed
  · intro entries hentries
    exact r.unreserved_mapping? h (hentries ▸ hc.parameters)

theorem MakesEndpoint.clean {e : Endpoint} (he : MakesEndpoint r e) : e.Clean :=
  ⟨r.unreserved_mapping h he.apiHeaders, r.unreserved_mapping h he.sensitiveHeaders,
    r.unreserved_mapping h he.data⟩

theorem MakesTool.sound {t : Tool} (ht : MakesTool r t) :
    (Kind.tool t).WellFormed ∧ (Kind.tool t).Clean := by
  obtain ⟨hwell, hclean⟩ := sound_slots ht.slots
  refine ⟨hwell, ?_, hclean⟩
  obtain ⟨site, slots, confirmation⟩ := t
  obtain ⟨hsite, -, -⟩ := ht
  cases hsite with
  | server => trivial
  | client => trivial
  | remote _ he => exact he.clean h

/-- What is made of answers is well formed, since its checks were passed, and it is clean. -/
theorem Makes.sound {answers : List (List Component)} {k : Kind} (hk : Makes r answers k) :
    k.WellFormed ∧ k.Clean := by
  cases hk with
  | modelConfig hprovider hconfig => exact hconfig.sound h
  | tool htool => exact htool.sound h
  | agent htype hprompt hconfig hfits htools hslots hhuman =>
    obtain ⟨hwell, hclean⟩ := sound_slots hslots
    exact ⟨⟨Expectation.check_ok_iff.mp hconfig, Expectation.checkAll_ok_iff.mp htools, hwell⟩,
      hclean⟩
  | swarm htype hfits hbuild => exact ⟨Kind.wellFormed_buildSwarm hbuild, trivial⟩
  | managerWorkers htype hfits hbuild =>
    exact ⟨Kind.wellFormed_buildManagerWorkers hbuild, trivial⟩
  | flow htype hnodes hlisted hcontrol hedges hdata hjoins hslots =>
    obtain ⟨hwell, hclean⟩ := sound_slots hslots
    exact ⟨⟨Kind.wellFormed_checkFlowNodes hlisted (Expectation.checkAll_ok_iff.mp hedges)
      (Expectation.checkAll_ok_iff.mp hjoins), hwell⟩, hclean⟩
  | node htype hslots hrole =>
    obtain ⟨hwell, hclean⟩ := sound_slots hslots
    cases hrole with
    | start => exact ⟨⟨trivial, hwell⟩, trivial, hclean⟩
    | finish => exact ⟨⟨trivial, hwell⟩, trivial, hclean⟩
    | llm _ _ hbuild => exact ⟨Kind.wellFormed_buildLlmNode hbuild hwell, trivial, hclean⟩
    | tool _ hbuild => exact ⟨Kind.wellFormed_buildToolNode hbuild hwell, trivial, hclean⟩
    | agent _ hbuild => exact ⟨Kind.wellFormed_buildAgentNode hbuild hwell, trivial, hclean⟩
    | flow _ hbuild => exact ⟨Kind.wellFormed_buildFlowNode hbuild hwell, trivial, hclean⟩
    | branching _ hmapping =>
      exact ⟨⟨trivial, hwell⟩, r.unreserved_textMapping h hmapping, hclean⟩
  | controlFlowEdge htype hsource htarget hbranch =>
    exact ⟨⟨Expectation.check_ok_iff.mp hsource, Expectation.check_ok_iff.mp htarget⟩, trivial⟩
  | dataFlowEdge htype houtput hinput hbuild =>
    exact ⟨Kind.wellFormed_buildDataFlowEdge hbuild, trivial⟩

theorem obtains_read (hr : reader.Vets A) : Obtains A (read reader r) (·.Vetted A) := by
  have hasked : ∀ q ∈ r.questions (componentFields r.componentType), ∀ value ∈ q.2,
      value.Unreserved := by
    refine Record.forall_questions (fun _ hitems => Tree.keysAll_list.mp hitems) ?_
    exact fun _ _ _ hvalue => r.unreserved_get? h hvalue
  refine (asks_read.preserves (fun _ _ => trivial) fun q hq value hvalue =>
    Reader.obtains_componentOf hr (hasked q hq value hvalue)).mono ?_
  rintro k ⟨answers, hanswers, hk⟩
  obtain ⟨hwell, hclean⟩ := hk.sound h
  refine ⟨fun c hc => ?_, hwell, hclean⟩
  rw [hk.held] at hc
  obtain ⟨_, -, hc⟩ := exists_left (Reader.forall₂_flatten hanswers) hc
  exact hc

end
end Builtin

namespace Load
variable {A : Component → Prop} {ctx : Context}

/-- What holds of the things that stay fixed while a document is loaded. -/
structure Context.Vets (A : Component → Prop) (ctx : Context) : Prop where
  plugins : ∀ p ∈ ctx.registry.extensions, p.IsGeneric
  supplied : ∀ id c, Dict.get? ctx.supplied id = some c → A c
  sidecar : ∀ id fields, Dict.get? ctx.sidecar id = some fields → (Tree.map fields).Unreserved

theorem obtains_pluginRead {registry : Registry} {type : String} {plugin : Plugin} {reader : Reader}
    {r : Record} (hplugins : ∀ p ∈ registry.extensions, p.IsGeneric)
    (hplugin : pluginOf registry type = .ok plugin) (hr : reader.Vets A)
    (h : (Tree.map r.fields).Unreserved) : Obtains A (plugin.read reader r) (·.Vetted A) := by
  unfold pluginOf at hplugin
  split at hplugin
  · rename_i owner howner
    obtain rfl := Except.ok.inj hplugin
    rcases Registry.owner?_cases howner with hmem | ⟨-, rfl⟩
    · obtain ⟨name, version, types, declared, hgeneric⟩ := hplugins _ hmem
      rw [hgeneric]
      have hnone : ∀ c ∈ heldComponents [], A c := fun _ hc => nomatch hc
      refine (Reader.obtains_bagOf hr (r.unreserved_ownFields h) (by trivial) hnone).bind
        fun fields hfields => .pure ?_
      exact ⟨hfields.2, trivial, hfields.1⟩
    · exact Builtin.obtains_read h hr
  · cases hplugin

theorem obtains_follow (hctx : ctx.Vets A) {load : Dict Tree → LoadM Component}
    (hload : ∀ fields, (Tree.map fields).Unreserved → Obtains A (load fields) A) (id : String) :
    Obtains A (follow ctx load id) A := by
  unfold follow
  refine .get fun s hs => ?_
  split
  · exact .throw _
  · rename_i c hc
    exact .pure (hs id c hc)
  · split
    · rename_i c hc
      have hA := hctx.supplied id c hc
      refine (obtains_setResolution ?_).bind fun _ _ => .pure hA
      rintro _ ⟨⟩
      exact hA
    · split
      · exact .throw _
      · rename_i fields hfields
        refine (obtains_setResolution (by rintro _ ⟨⟩)).bind fun _ _ => ?_
        refine (hload fields (hctx.sidecar id fields hfields)).bind fun c hc => ?_
        refine (obtains_setResolution ?_).bind fun _ _ => .pure hc
        rintro _ ⟨⟩
        exact hc

theorem obtains_build (hA : PassedByVetted A) {plugin : Plugin} {reader : Reader} {r : Record}
    (id : String) (h : (Tree.map r.fields).Unreserved)
    (hread : Obtains A (plugin.read reader r) (·.Vetted A)) :
    Obtains A (build plugin reader r id) A := by
  unfold build
  refine .lift fun name _ => .lift fun description _ => .lift fun metadata hmetadata => ?_
  refine hread.bind fun kind hkind => obtains_freshHandle.bind fun handle _ => ?_
  have hc := hA handle id name description metadata kind (r.unreserved_mapping h hmetadata) hkind
  refine (obtains_setResolution ?_).bind fun _ _ => .pure hc
  rintro _ ⟨⟩
  exact hc

/-- The object of a known id passes: the one that the id stands for, or a new one. -/
theorem obtains_resolve {plugin : Plugin} {reader : Reader} (hA : PassedByVetted A) (id : String)
    (h : (Tree.map r.fields).Unreserved) (hread : Obtains A (plugin.read reader r) (·.Vetted A)) :
    Obtains A
      (do
        match (← get).resolved? id with
        | some c => return c
        | none => build plugin reader r id)
      A := by
  refine .get fun s hs => ?_
  cases hget : s.resolved? id with
  | some c => exact .pure (hs id c (LoadState.resolved?_eq_some.mp hget))
  | none => exact obtains_build hA id h hread

/-- A record without reserved keys gives a component that passes, at whatever depth it stands. -/
theorem obtains_record (hA : PassedByVetted A) (hctx : ctx.Vets A) (room : Nat) {fields : Dict Tree}
    (h : (Tree.map fields).Unreserved) : Obtains A (record ctx room fields) A := by
  induction room generalizing fields with
  | zero => exact .throw _
  | succ room ih =>
    unfold record
    refine .lift fun type _ => .lift fun plugin hplugin => .lift fun id? _ => ?_
    have hreader : Reader.Vets A
        ⟨ctx.release, ctx.naming, record ctx room, follow ctx (record ctx room)⟩ :=
      ⟨fun use huse => ih huse, obtains_follow hctx fun fields hfields => ih hfields⟩
    have hread :=
      obtains_pluginRead (r := ⟨fields, ctx.naming, type⟩) hctx.plugins hplugin hreader h
    cases id? with
    | some id => exact obtains_resolve hA id h hread
    | none => exact obtains_freshId.bind fun id _ => obtains_resolve hA id h hread

theorem obtains_entries (hA : PassedByVetted A) (hctx : ctx.Vets A) (ids : List String) :
    Obtains A (entries ctx ids) fun found => ∀ c ∈ Dict.values found, A c := by
  induction ids with
  | nil => exact .pure (by simp [Dict.values])
  | cons id rest ih =>
    have hfollow := obtains_follow hctx (fun _ h => obtains_record hA hctx ctx.maxDepth h) id
    refine hfollow.bind fun c hc => ih.bind fun found hfound => .pure ?_
    exact List.forall_mem_cons.mpr ⟨hc, hfound⟩

end Load

/-- The components that a load gives back: the root, or those of a sidecar document. -/
def Loaded.components : Loaded → List Component
  | .component root => [root]
  | .referenced components => Dict.values components

namespace Load
variable {A : Component → Prop} {ctx : Context}

theorem obtains_root (hA : PassedByVetted A) (hctx : ctx.Vets A) (disaggregatedOnly : Bool)
    {fields : Dict Tree} (h : (Tree.map fields).Unreserved) :
    Obtains A (root ctx disaggregatedOnly fields) fun loaded => ∀ c ∈ loaded.components, A c := by
  unfold root
  simp only
  split
  · refine (obtains_record hA hctx ctx.maxDepth h).bind fun c hc => .pure ?_
    exact List.forall_mem_singleton.mpr hc
  · split
    · exact .throw _
    · split
      · exact .throw _
      · exact (obtains_entries hA hctx _).bind fun found hfound => .pure hfound

/-- Every component that a load gives back passes a test that is passed by the supplied ones and by
each vetted one. -/
theorem load_obtains {registry : Registry} {options : LoadOptions} {document : Tree}
    {supply after : Supply} {loaded : Loaded} (hA : PassedByVetted A)
    (hplugins : ∀ p ∈ registry.extensions, p.IsGeneric)
    (hsupplied : ∀ c ∈ Dict.values options.supplied, A c)
    (hload : load registry options document supply = .ok (loaded, after)) :
    ∀ c ∈ loaded.components, A c := by
  unfold load at hload
  obtain ⟨_, -, hload⟩ := bind_ok hload
  have hfree := Tree.unreserved_strip document
  cases hstrip : document.strip with
  | map fields =>
    rw [hstrip] at hload hfree
    obtain ⟨release, -, hload⟩ := bind_ok hload
    obtain ⟨scan, hscan, hload⟩ := bind_ok hload
    obtain ⟨⟨found, state⟩, hrun, hload⟩ := bind_ok hload
    obtain ⟨rfl, -⟩ := Prod.mk.inj (Except.ok.inj hload)
    have hctx : Context.Vets A ⟨registry, options.naming, release, options.supplied, scan.defined,
        options.maxDepth⟩ := by
      refine ⟨hplugins, fun id c hc => hsupplied c ?_, fun id fields hid => ?_⟩
      · exact List.mem_map.mpr ⟨(id, c), Dict.mem_of_get? hc, rfl⟩
      · exact unreserved_of_below hfree (Scan.below_of_defined hscan hid)
    have hempty : Known A ⟨[], supply⟩ := fun _ _ h => nomatch h
    exact (((obtains_root hA hctx options.disaggregatedOnly hfree).run hempty).of_ok hrun).1
  | _ =>
    rw [hstrip] at hload
    cases hload

end Load
end AgentGraph
