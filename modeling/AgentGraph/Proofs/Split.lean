import AgentGraph.Proofs.RoundTrip
import AgentGraph.Proofs.Sidecar
/-!
# A document and its sidecar give back what was saved

A graph without secrets that is saved as of the current release, with some of it in a sidecar, is read
back as it was: the sidecar is loaded on its own, and then the document with the components of the sidecar.
The second load takes a component from the first wherever the graph goes on in the sidecar, so the two meet
in one graph with one object for every id.
-/
namespace AgentGraph
open List (Forall₂)

/-- No field of the kind that the builtin policy keeps out of every document holds anything. -/
def Kind.HoldsNoSecret (k : Kind) : Prop :=
  ∀ f ∈ k.fields, Policy.builtin.isSensitive k.componentType f.1 = true → f.2 = .mapping []

theorem seenOr_self {α : Type} (seen : Bool) (a : α) : seenOr seen a a = a := by
  cases seen <;> rfl

section HideNothing
variable {k : Kind}

/-- A field is seen as it is, unless it is kept out and empty. -/
theorem Kind.HoldsNoSecret.seenOr_eq (h : k.HoldsNoSecret) {α : Type} {field : String} {v : Value}
    {a default : α} (hv : (field, v) ∈ k.fields) (hempty : v = .mapping [] → a = default) :
    seenOr (Policy.builtin.shows .current k.componentType field) a default = a := by
  rw [Policy.shows_current]
  cases hs : Policy.builtin.isSensitive k.componentType field with
  | false => rfl
  | true => exact (hempty (h _ hv hs)).symm

theorem ModelConfig.hide_eq {c : ModelConfig} (h : (Kind.modelConfig c).HoldsNoSecret) :
    c.hide (Policy.builtin.shows .current) = c := by
  have hkey : seenOr (Policy.builtin.shows .current c.provider.componentType "apiKey") c.apiKey none =
      c.apiKey := by
    cases hk : c.apiKey with
    | none => exact seenOr_self _ _
    | some text =>
      have hmem : ("apiKey", Value.text text) ∈ (Kind.modelConfig c).fields := by
        simp [Kind.fields, ModelConfig.fields, hk, optionalText]
      exact h.seenOr_eq hmem fun hempty => by cases hempty
  have htype : seenOr (Policy.builtin.shows .current c.provider.componentType "apiType") c.apiType
      none = c.apiType := by
    cases hk : c.apiType with
    | none => exact seenOr_self _ _
    | some text =>
      have hmem : ("apiType", Value.text text) ∈ (Kind.modelConfig c).fields := by
        simp [Kind.fields, ModelConfig.fields, hk, optionalText]
      exact h.seenOr_eq hmem fun hempty => by cases hempty
  rw [hide, hkey, htype]

theorem Tool.hide_eq {t : Tool} (h : (Kind.tool t).HoldsNoSecret) :
    t.hide (Policy.builtin.shows .current) = t := by
  have hsite : t.site.hide (Policy.builtin.shows .current) = t.site := by
    cases hs : t.site with
    | server => rfl
    | client => rfl
    | remote e =>
      have hmem : ("sensitiveHeaders", Value.mapping e.sensitiveHeaders) ∈ (Kind.tool t).fields := by
        simp [Kind.fields, Tool.fields, hs, Endpoint.fields]
      have hremote : (Kind.tool t).componentType = "RemoteTool" := by
        simp [Kind.componentType, Tool.componentType, hs]
      have hheaders : seenOr (Policy.builtin.shows .current (Kind.tool t).componentType
          "sensitiveHeaders") e.sensitiveHeaders [] = e.sensitiveHeaders :=
        h.seenOr_eq hmem fun hempty => by
          injection hempty with hempty
          injection hempty
      rw [hremote] at hheaders
      rw [ToolSite.hide, hheaders]
  have hmem : ("requiresConfirmation", Value.bool t.requiresConfirmation) ∈ (Kind.tool t).fields := by
    simp [Kind.fields, Tool.fields]
  have hconfirmation : seenOr (Policy.builtin.shows .current t.componentType "requiresConfirmation")
      t.requiresConfirmation false = t.requiresConfirmation :=
    h.seenOr_eq hmem fun hempty => by cases hempty
  rw [hide, hsite, hconfirmation]

theorem hideList_same {shows : String → String → Bool} {cs : List Component}
    (h : ∀ c ∈ cs, c.hide shows = c) : hideList shows cs = cs := by
  rw [hideList_eq]
  exact List.map_congr_left h |>.trans (List.map_id cs)

theorem hidePairs_same {shows : String → String → Bool} {ps : List (Component × Component)}
    (h : ∀ c ∈ Kind.heldPairs ps, c.hide shows = c) : hidePairs shows ps = ps := by
  induction ps with
  | nil => rw [hidePairs]
  | cons p rest ih =>
    have hheld : Kind.heldPairs (p :: rest) = p.1 :: p.2 :: Kind.heldPairs rest := rfl
    rw [hheld] at h
    obtain ⟨hfirst, h⟩ := List.forall_mem_cons.mp h
    obtain ⟨hsecond, h⟩ := List.forall_mem_cons.mp h
    rw [hidePairs, hfirst, hsecond, ih h]

/-- Where there are no secrets and the components within stay as they are, nothing is taken. -/
theorem Kind.hide_eq (h : k.HoldsNoSecret)
    (hheld : ∀ c ∈ heldComponents k.fields, c.hide (Policy.builtin.shows .current) = c) :
    k.hide (Policy.builtin.shows .current) = k := by
  cases k with
  | modelConfig c => rw [Kind.hide, ModelConfig.hide_eq h]
  | tool t => rw [Kind.hide, Tool.hide_eq h]
  | agent c p ts hu s =>
    rw [held_agent, List.forall_mem_cons] at hheld
    have hmem : ("humanInTheLoop", Value.bool hu) ∈ (Kind.agent c p ts hu s).fields := by
      simp [fields]
    have hhuman : seenOr (Policy.builtin.shows .current "Agent" "humanInTheLoop") hu true = hu :=
      h.seenOr_eq hmem fun hempty => by cases hempty
    rw [Kind.hide, hheld.1, hideList_same hheld.2, hhuman]
  | swarm f rs =>
    rw [held_swarm, List.forall_mem_cons] at hheld
    rw [Kind.hide, hheld.1, hidePairs_same hheld.2]
  | managerWorkers m ws =>
    rw [held_managerWorkers, List.forall_mem_cons] at hheld
    rw [Kind.hide, hheld.1, hideList_same hheld.2]
  | flow n ns cs ds s =>
    rw [held_flow, List.forall_mem_cons, List.forall_mem_append, List.forall_mem_append] at hheld
    obtain ⟨hn, hns, hcs, hds⟩ := hheld
    rw [Kind.hide, hn, hideList_same hns, hideList_same hcs, hideList_same hds]
  | node role s =>
    rw [held_node] at hheld
    cases role <;>
      simp_all [Kind.hide, NodeRole.hide, NodeRole.fields, heldComponents, Value.componentsOfEntries]
  | controlFlowEdge f b t =>
    rw [held_controlFlowEdge] at hheld
    rw [Kind.hide, hheld f (by simp), hheld t (by simp)]
  | dataFlowEdge s o d i =>
    rw [held_dataFlowEdge] at hheld
    rw [Kind.hide, hheld s (by simp), hheld d (by simp)]
  | extension type fields => rw [Kind.hide]

/-- At the current release nothing is taken from a graph without secrets. -/
theorem Component.hide_eq {c : Component}
    (h : ∀ d, Component.Reaches Component.children c d → d.kind.HoldsNoSecret) :
    c.hide (Policy.builtin.shows .current) = c := by
  induction hn : c.weight using Nat.strongRecOn generalizing c with
  | _ n ih =>
    subst hn
    have hheld : ∀ d ∈ c.children, d.hide (Policy.builtin.shows .current) = d := fun d hd =>
      ih _ (Component.weight_lt_of_child hd) (fun e he => h e (.step hd he)) rfl
    have hkind := Kind.hide_eq (h c (.refl c)) hheld
    obtain ⟨handle, id, name, description, metadata, k⟩ := c
    rw [Component.hide]
    exact congrArg _ hkind

end HideNothing

namespace Writer
variable {w : Writer} {root : Component} {l : Layout} {r : Records} {x name : String}
  {listed : List (String × Option String)} {exportSidecar : Bool} {saved : Saved}
  {G : w.FullGraph root} {t : LoadState} {components : Dict Component} {ctx : Load.Context}

/-- What is on top of a sidecar is loaded under its name. -/
theorem keys_components (h : Forall₂ (fun p q => q.1 = p.2 ∧
      w.Sound root (fun _ => none) t p.1 q.2) l.aliases components) :
    Dict.keys components = l.aliases.map (·.2) := by
  generalize l.aliases = aliases at h
  induction h with
  | nil => rfl
  | cons hpq _ ih => rw [Dict.keys_cons, List.map_cons, ih, hpq.1]

theorem get?_components (hnodup : (Dict.keys components).Nodup) (h : Forall₂ (fun p q => q.1 = p.2 ∧
      w.Sound root (fun _ => none) t p.1 q.2) l.aliases components) (hx : (x, name) ∈ l.aliases) :
    ∃ L, Dict.get? components name = some L ∧ w.Sound root (fun _ => none) t x L := by
  obtain ⟨⟨other, L⟩, hq, hname, hL⟩ := exists_left h.flip hx
  obtain rfl : other = name := hname
  exact ⟨L, Dict.get?_of_mem hnodup hq, hL⟩

/-- With the components of the sidecar the document is at home. -/
theorem Outcome.home_supplied (O : Outcome G listed exportSidecar l r saved)
    (hapart : AliasesApart (G.regular.dag.Reaches root.id) listed)
    (hnaming : ctx.naming = w.target.naming)
    (hregistry : ctx.registry = w.registry)
    (hsidecar : ctx.sidecar = entriesWithin O.planned r root.id) (hsupplied : ctx.supplied = components)
    (ht : Resolved G l (fun _ => none) (Sided G.regular listed) t)
    (h : Forall₂ (fun p q => q.1 = p.2 ∧ w.Sound root (fun _ => none) t p.1 q.2) l.aliases
      components) :
    Home G l r t.resolved? (fun x => ¬ Sided G.regular listed x) ctx := by
  have hkeys := keys_components h
  have hnodup : (Dict.keys components).Nodup := by
    rw [hkeys]
    exact O.planned.nodup_names hapart
  have hmeaning : meaning (fun _ => none) t = t.resolved? := by
    funext x
    rw [meaning, Option.none_or]
  refine O.home_document hapart hnaming hregistry hsidecar ?_ ?_ ?_ ?_
  · intro y name hy
    have hmem := Dict.mem_of_get? hy
    obtain ⟨L, hget, hL⟩ := get?_components hnodup h hmem
    have hreach := (O.aliased_name hmem).1
    have hself := hL.closed L (.refl L)
    rw [hL.restores.id, hmeaning] at hself
    exact ⟨L, hsupplied ▸ hget, hself⟩
  · intro name hname
    rw [hsupplied, hkeys] at hname
    obtain ⟨⟨y, name⟩, hy, rfl⟩ := List.mem_map.mp hname
    exact ⟨y, hy⟩
  · intro x hx hne
    obtain ⟨L, hL⟩ := Option.ne_none_iff_exists'.mp hne
    exact (ht.sound O.planned hapart (.inl rfl) hx hL).1.resolve_right fun hno => by cases hno
  · intro x L hx hL
    have hsound := (ht.sound O.planned hapart (.inl rfl) hx hL).2
    exact ⟨hsound.restores, fun d hd => hmeaning ▸ hsound.closed d hd⟩

end Writer

/-- A graph without secrets that is split at the current release is put together again by two loads. -/
theorem load_split {extensions : List Plugin} {registry : Registry} {options : SaveOptions}
    {root : Component} {saved : Saved}
    (hregistry : Registry.ofPlugins extensions = .ok registry)
    (hbuilt : ∀ c, Component.Reaches Component.children root c → c.kind.Built)
    (hsame : Component.Coherent Component.children root)
    (hopen : ∀ c, Component.Reaches Component.children root c → c.kind.HoldsNoSecret)
    (hplain : ∀ c, Component.Reaches Component.children root c → c.Plain options.naming)
    (hcurrent : options.release = .current) (hexport : options.exportSidecar = true)
    (hlisted : options.disaggregated ≠ [])
    (hapart : AliasesApart
      (fun x => ∃ c, Component.Reaches Component.children root c ∧ c.id = x) options.disaggregated)
    (hnames : ∀ entry ∈ options.disaggregated, ∀ name, entry.2 = some name →
      options.naming.IsPlain name)
    (hsave : save registry .builtin options root = .ok saved) :
    ∃ sidecar, saved.sidecar = some sidecar ∧
      ∀ (first : LoadOptions) (supply : Supply), first.naming = options.naming →
        first.supplied = [] → first.disaggregatedOnly = true →
        Load.Yields (load registry first sidecar supply) fun loaded =>
          ∃ components, loaded = .referenced components ∧
            ∀ (second : LoadOptions) (supply' : Supply), second.naming = options.naming →
              second.supplied = [] →
              Load.Yields (load registry (second.supply components) saved.document supply')
                (GivesBack root) := by
  have hallowed : ∀ c, Component.Reaches Component.children root c →
      Policy.builtin.kindAllowed c.componentType options.release = true := fun c _ => by
    rw [hcurrent]
    exact Policy.kindAllowed_current _ _
  have hlegible := Writer.legibleGraph hregistry hallowed (fun c hc => .builtin (hbuilt c hc)) hplain
    hsame
  have G := hlegible.full
  have hapart' := G.apart hapart
  obtain ⟨l, r, O⟩ := save_ok G hapart' hsave
  have hhide : root.hide (options.writer registry .builtin).shows = root := by
    have hshows : (options.writer registry .builtin).shows = Policy.builtin.shows .current := by
      rw [← hcurrent]
      rfl
    rw [hshows]
    exact Component.hide_eq hopen
  obtain ⟨hne, hsidecar⟩ := O.sidecar_eq hexport hlisted
  refine ⟨_, hsidecar, fun first supply hfirst hempty honly => ?_⟩
  refine (O.load_sidecar (fun c hc => (hplain c hc).id) hnames hlegible hapart' hne hfirst hempty
    honly supply rfl).mono ?_
  rintro loaded ⟨components, t, rfl, ht, hcomponents⟩
  refine ⟨components, rfl, fun second supply' hsecond hnone => ?_⟩
  have hnodup : (Dict.keys components).Nodup := by
    rw [Writer.keys_components hcomponents]
    exact O.planned.nodup_names hapart'
  have hsupplied : (second.supply components).supplied = components := by
    rw [LoadOptions.supply, hnone]
    exact Dict.merge_of_disjoint hnodup
  have hnaming : (second.supply components).naming = options.naming := hsecond
  have H : Writer.Home G l r t.resolved?
      (fun x => ¬ Writer.Sided G.regular options.disaggregated x)
      ⟨registry, second.naming, options.release, (second.supply components).supplied,
        Writer.entriesWithin O.planned r root.id, second.maxDepth⟩ :=
    O.home_supplied hapart' hsecond rfl rfl hsupplied ht hcomponents
  refine (O.load_document hapart' hlegible hnaming supply' H).mono ?_
  rintro loaded ⟨L, u, rfl, -, hL⟩
  exact hhide ▸ hL.givesBack (hbuilt root (.refl _)).isBuiltin

namespace Sample

theorem noSecret {c : Component} (h : Component.Reaches Component.children team c) :
    c.kind.HoldsNoSecret := by
  have hall : ∀ c ∈ [team, alice, bob, model, search], ∀ f ∈ c.kind.fields,
      Policy.builtin.isSensitive c.kind.componentType f.1 = false := by decide +kernel
  intro f hf hs
  rw [hall c (mem_team h) f hf] at hs
  cases hs

def sidecarOnly : LoadOptions := { LoadOptions.default with disaggregatedOnly := true }

def referenced : Loaded → Dict Component
  | .referenced components => components
  | .component _ => []

end Sample

theorem load_split_team : ∃ saved sidecar components supply,
    save .builtin .builtin Sample.split Sample.team = .ok saved ∧
    saved.sidecar = some sidecar ∧
    load .builtin Sample.sidecarOnly sidecar ⟨0, 0⟩ = .ok (.referenced components, supply) ∧
    Load.Yields (load .builtin (LoadOptions.default.supply components) saved.document supply)
      (GivesBack Sample.team) ∧
    (load .builtin (LoadOptions.default.supply components) saved.document supply matches .ok _) =
      true := by
  have hruns : (save .builtin .builtin Sample.split Sample.team).toOption.any (fun saved =>
      saved.sidecar.any fun sidecar =>
        (load .builtin Sample.sidecarOnly sidecar ⟨0, 0⟩).toOption.any fun first =>
          (load .builtin (LoadOptions.default.supply (Sample.referenced first.1)) saved.document
            first.2).isOk) = true := by
    decide +kernel
  obtain ⟨saved, hsave, hruns⟩ := exists_of_any hruns
  have hregistry : Registry.ofPlugins [] = .ok .builtin := rfl
  have hnames : ∀ entry ∈ Sample.split.disaggregated, ∀ name, entry.2 = some name →
      NamingMode.canonical.IsPlain name := by
    intro entry hentry name hname
    obtain rfl := List.mem_singleton.mp hentry
    obtain rfl := Option.some.inj hname
    exact ⟨by decide, by decide, by decide⟩
  obtain ⟨sidecar, hsidecar, hload⟩ := load_split hregistry (fun _ => Sample.built)
    Sample.coherent (fun _ => Sample.noSecret) (fun _ => Sample.plain) rfl rfl (by decide)
    Sample.split_apart hnames hsave
  rw [hsidecar] at hruns
  obtain ⟨⟨loaded, supply⟩, hfirst, hruns⟩ := exists_of_any hruns
  have hyields := hload Sample.sidecarOnly ⟨0, 0⟩ rfl rfl rfl
  rw [hfirst] at hyields
  obtain ⟨components, rfl, hsecond⟩ := hyields
  obtain ⟨again, hagain⟩ := exists_of_isOk hruns
  change load .builtin (LoadOptions.default.supply components) saved.document supply = _ at hagain
  refine ⟨saved, sidecar, components, supply, hsave, hsidecar, hfirst,
    hsecond .default supply rfl rfl, ?_⟩
  rw [hagain]

end AgentGraph
