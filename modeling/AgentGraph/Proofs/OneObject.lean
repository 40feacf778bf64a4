import AgentGraph.Proofs.Load.Reading
import AgentGraph.Proofs.Registry
/-!
# One id is one object

A document that is loaded without supplied components becomes a graph in which components of one id
are one object, if no record leads to a record of its own id. The id of a record is noted when the
record is built, which is after all that it leads to was loaded: a record of the same id among these
makes a second object.
-/
namespace AgentGraph

def Loaded.roots : Loaded → List Component
  | component root => [root]
  | referenced components => Dict.values components

namespace Load
variable {first : Nat} {A : String → Prop} {U : Component → Prop} {s : LoadState} {ctx : Context}
  {f : Dict Tree} {id : String}

/-- A reference gives the object that its id stands for, or that of the entry, loaded now. -/
theorem gains_follow {load : Dict Tree → LoadM Component} (hsupplied : ctx.supplied = [])
    (hload : ∀ g, Dict.get? ctx.sidecar id = some g → ∀ U s,
      Gains first A U s (load g) fun V c => V c) :
    Gains first A U s (follow ctx load id) fun V c => V c := by
  intro hs c t hrun
  unfold follow at hrun
  have h₁ := run_get_bind_ok hrun
  cases hget : s.resolution.get? id with
  | some r =>
    rw [hget] at h₁
    cases r with
    | inProgress => exact (run_throw_ok h₁).elim
    | resolved d =>
      obtain ⟨rfl, rfl⟩ := run_pure_ok h₁
      exact ⟨U, hs, .refl A U t, hs.built id c (by rw [LoadState.resolved?, hget])⟩
  | none =>
    rw [hget] at h₁
    simp only [hsupplied, Dict.get?_nil] at h₁
    cases hg : Dict.get? ctx.sidecar id with
    | none =>
      rw [hg] at h₁
      exact (run_throw_ok h₁).elim
    | some g =>
      rw [hg] at h₁
      have h₂ := run_modify_bind_ok h₁
      obtain ⟨d, u, hd, h₃⟩ := run_bind_ok h₂
      have h₄ := run_modify_bind_ok h₃
      obtain ⟨rfl, rfl⟩ := run_pure_ok h₄
      have hfree : s.resolved? id = none := by rw [LoadState.resolved?, hget]
      obtain ⟨V, hV, hUV, hc⟩ := hload g hg U _ (hs.begun hfree) c u hd
      exact ⟨V, hV.noted hc id, ⟨hUV.kept, hUV.supply, hUV.added⟩, hc⟩

/-- Building adds one object, of an id that no object has by then. -/
theorem gains_build {plugin : Plugin} {reader : Reader} {r : Record}
    (hread : ∀ U s, Gains first A U s (plugin.read reader r) Builtin.Holds) (hapart : ¬ A id)
    (hmade : ∀ n, s.supply.nextId ≤ n → id ≠ Supply.idOf n) (hnew : ∀ d, U d → d.id ≠ id) :
    Gains first (fun x => A x ∨ x = id) U s (build plugin reader r id) fun V c => V c := by
  unfold build
  refine .lift fun name _ => .lift fun description _ => .lift fun metadata _ => ?_
  intro hs c t hrun
  obtain ⟨kind, u, hkind, h₁⟩ := run_bind_ok hrun
  obtain ⟨V, hV, hUV, hheld⟩ := hread U s hs kind u hkind
  -- reading the fields came in between, and it added no object of this id
  have hfree : ∀ d, V d → d.id ≠ id := by
    rintro d hd rfl
    rcases hUV.added d hd with hd | hd | ⟨n, hn, hid⟩
    · exact hnew d hd rfl
    · exact hapart hd
    · exact hmade n hn hid
  cases h₁
  refine ⟨_, hV.added hfree hheld, ⟨fun d hd => .inl (hUV.kept d hd), hUV.supply, ?_⟩, .inr rfl⟩
  rintro d (hd | rfl)
  · exact (hUV.added d hd).imp_right (Or.imp_left .inl)
  · exact .inr (.inl (.inr rfl))

/-- The plugins that read: the builtin one for the builtin types, and bags for all others. -/
def KnownPlugins (registry : Registry) : Prop :=
  ∀ type plugin, pluginOf registry type = .ok plugin →
    (type ∈ Builtin.types ∧ plugin = Plugin.builtin) ∨
    (type ∉ Builtin.types ∧ plugin.IsGeneric)

theorem knownPlugins_of_generic {extensions : List Plugin} {registry : Registry}
    (hregistry : Registry.ofPlugins extensions = .ok registry)
    (hgeneric : ∀ plugin ∈ extensions, plugin.IsGeneric) : KnownPlugins registry := by
  intro type plugin hplugin
  unfold pluginOf at hplugin
  cases ho : registry.owner? type with
  | none => simp [ho] at hplugin
  | some owner =>
    rw [ho] at hplugin
    obtain rfl := Except.ok.inj hplugin
    by_cases htype : type ∈ Builtin.types
    · have hbuiltin := Registry.owner?_builtin hregistry htype
      obtain rfl := Option.some.inj (ho.symm.trans hbuiltin)
      exact .inl ⟨htype, rfl⟩
    · obtain ⟨_, -, hr⟩ := bind_ok hregistry
      obtain rfl := Except.ok.inj hr
      rcases Registry.owner?_cases ho with hextension | ⟨hbuiltin, -⟩
      · exact .inr ⟨htype, hgeneric _ hextension⟩
      · exact absurd hbuiltin htype

theorem typeOf_ok {naming : NamingMode} {type : String} (h : typeOf naming f = .ok type) :
    Dict.get? f naming.protocol.componentType = some (.string type) := by
  unfold typeOf at h
  simp only at h
  split at h
  · cases h
  · rename_i hget
    rw [hget, Except.ok.inj h]
  · cases h

/-- Whichever plugin reads a record, it asks only for what the record uses. -/
theorem gains_pluginRead {reader : Reader} {type : String} {plugin : Plugin}
    (hplugins : KnownPlugins ctx.registry) (htype : typeOf reader.naming f = .ok type)
    (hplugin : pluginOf ctx.registry type = .ok plugin)
    (hr : reader.Serves first A (· ∈ uses reader.naming f)) :
    Gains first A U s (plugin.read reader ⟨f, reader.naming, type⟩) Builtin.Holds := by
  have hget := typeOf_ok htype
  rcases hplugins type plugin hplugin with
    ⟨hbuiltin, rfl⟩ | ⟨hother, name, version, types, declared, rfl⟩
  · refine Builtin.gains_read hr fun field hfield value hvalue use huse => ?_
    refine List.mem_flatMap.mpr ⟨value, ?_, huse⟩
    simp only [componentTrees, hget, List.contains_iff_mem.mpr hbuiltin, if_true]
    exact List.mem_filterMap.mpr ⟨field, hfield, hvalue⟩
  · have hbag : ∀ c ∈ heldComponents [], U c := by
      simp [heldComponents, Value.componentsOfEntries]
    refine (Reader.gains_bagOf hr ?_ hbag).bind fun V t bag _ hbag => .pure hbag
    rintro pair hpair use huse
    obtain ⟨own, hown, rfl⟩ := List.mem_map.mp hpair
    refine List.mem_flatMap.mpr ⟨own.2, ?_, huse⟩
    have hfalse : ¬ Builtin.types.contains type = true := by simpa using hother
    simp only [componentTrees, hget, if_neg hfalse]
    exact List.mem_map.mpr ⟨own, hown, rfl⟩

/-- The object of a known id: the one that the id stands for, or a new one. -/
theorem gains_resolve {plugin : Plugin} {reader : Reader} {r : Record}
    (hread : ∀ U s, Gains first A U s (plugin.read reader r) Builtin.Holds) (hapart : ¬ A id)
    (hmade : ∀ n, s.supply.nextId ≤ n → id ≠ Supply.idOf n) :
    Gains first (fun x => A x ∨ x = id) U s
      (do
        match (← get).resolved? id with
        | some c => return c
        | none => build plugin reader r id)
      fun V c => V c := by
  apply Gains.get
  cases hid : s.resolved? id with
  | some c =>
    intro hs d t hrun
    obtain ⟨rfl, rfl⟩ := run_pure_ok hrun
    exact ⟨U, hs, .refl _ U t, hs.built id d hid⟩
  | none =>
    intro hs
    refine gains_build hread hapart hmade (fun d hd hdid => ?_) hs
    exact hs.known d hd (hdid ▸ hid)

theorem looksLikeComponent_of_record {room : Nat} {c : Component} {t : LoadState}
    (h : record ctx room f s = .ok (c, t)) :
    Reader.looksLikeComponent ctx.naming f = true := by
  cases room with
  | zero => exact (run_throw_ok h).elim
  | succ room =>
    obtain ⟨type, htype, -⟩ := run_lift_bind_ok h
    have hkey := Dict.mem_keys_iff.mpr ⟨_, typeOf_ok htype⟩
    simp [Reader.looksLikeComponent, Dict.has_iff.mpr hkey]

/-- What a record leads to is untangled too, and all its ids lie below the record. So the reader is
served by whatever loads untangled records. -/
theorem serves_below {load : Dict Tree → LoadM Component} (hsupplied : ctx.supplied = [])
    (hlooks : ∀ use c s t, load use s = .ok (c, t) →
      Reader.looksLikeComponent ctx.naming use = true)
    (hload : ∀ g U s, Untangled ctx.naming ctx.sidecar first g →
      Gains first (IdsFrom ctx.naming ctx.sidecar g) U s (load g) fun V c => V c)
    (hf : Untangled ctx.naming ctx.sidecar first f) :
    Reader.Serves first (IdsBelow ctx.naming ctx.sidecar f) (· ∈ uses ctx.naming f)
      ⟨ctx.release, ctx.naming, load, follow ctx load⟩ := by
  constructor
  · intro use U s huses href
    by_cases huse : Reader.looksLikeComponent ctx.naming use = true
    · have hleads : LeadsTo ctx.naming ctx.sidecar f use := leadsTo_nested (huses huse) href
      exact (hload use U s (hf.step hleads)).mono (fun x hx => hx.below hleads) fun _ _ h => h
    · intro _ c t hrun
      exact absurd (hlooks use c s t hrun) huse
  · intro use id U s huse href
    refine gains_follow hsupplied fun g hg U s => ?_
    have hleads := leadsTo_referenced huse href hg
    exact (hload g U s (hf.step hleads)).mono (fun x hx => hx.below hleads) fun _ _ h => h

/-- An id that the supply hands out is as good as any of those that it hands out later. -/
theorem gains_freshId {m : String → LoadM Component}
    (h : first ≤ s.supply.nextId → Gains first (fun x => A x ∨ x = Supply.idOf s.supply.nextId)
      U { s with supply := { s.supply with nextId := s.supply.nextId + 1 } }
      (m (Supply.idOf s.supply.nextId)) fun V c => V c) :
    Gains first A U s (freshId >>= m) fun V c => V c := by
  intro hs c t hrun
  obtain ⟨V, hV, hUV, hc⟩ := h hs.supply (hs.skip 1) c t hrun
  refine ⟨V, hV, ⟨hUV.kept, Nat.le_of_succ_le hUV.supply, fun d hd => ?_⟩, hc⟩
  rcases hUV.added d hd with hd | (hd | hd) | ⟨n, hn, hd⟩
  · exact .inl hd
  · exact .inr (.inl hd)
  · exact .inr (.inr ⟨_, Nat.le_refl _, hd⟩)
  · exact .inr (.inr ⟨n, Nat.le_of_succ_le hn, hd⟩)

/-- A record gives an object that was built. The objects that it adds have ids of the records that it
leads to and its own. -/
theorem gains_record (hplugins : KnownPlugins ctx.registry) (hsupplied : ctx.supplied = [])
    (room : Nat) (hf : Untangled ctx.naming ctx.sidecar first f) :
    Gains first (IdsFrom ctx.naming ctx.sidecar f) U s (record ctx room f) fun V c => V c := by
  induction room generalizing f U s with
  | zero => exact .throw _
  | succ room ih =>
    have hserves := serves_below hsupplied (fun _ _ _ _ => looksLikeComponent_of_record)
      (fun g U s hg => ih hg) hf
    unfold record
    refine .lift fun type htype => .lift fun plugin hplugin => .lift fun id? hid? => ?_
    have hdeclared := optionalText_id hid?
    have hread : ∀ U s, Gains first (IdsBelow ctx.naming ctx.sidecar f) U s
        (plugin.read ⟨ctx.release, ctx.naming, record ctx room, follow ctx (record ctx room)⟩
          ⟨f, ctx.naming, type⟩) Builtin.Holds :=
      fun U s => gains_pluginRead hplugins htype hplugin hserves
    cases id? with
    | some id =>
      intro hs
      have hapart : ¬ IdsBelow ctx.naming ctx.sidecar f id := by
        rintro ⟨g, hg, hid⟩
        exact hf.apart f g id .refl hg hdeclared hid
      have hmade : ∀ n, s.supply.nextId ≤ n → id ≠ Supply.idOf n := fun n hn =>
        hf.fresh f id .refl hdeclared n (Nat.le_trans hs.supply hn)
      refine (gains_resolve hread hapart hmade).mono ?_ (fun _ _ h => h) hs
      rintro x (hx | rfl)
      · exact hx.from
      · exact ⟨f, .refl, hdeclared⟩
    | none =>
      refine (gains_freshId fun hfirst => gains_resolve hread ?_ ?_).mono (fun _ hx => hx.from)
        fun _ _ h => h
      · rintro ⟨g, hg, hid⟩
        exact hf.fresh g _ hg.to_reflTransGen hid _ hfirst rfl
      · intro n hn heq
        have hsame := Supply.idOf_inj heq
        dsimp only at hn
        omega

theorem gains_entries (hplugins : KnownPlugins ctx.registry) (hsupplied : ctx.supplied = [])
    {ids : List String}
    (hids : ∀ id ∈ ids, ∀ g, Dict.get? ctx.sidecar id = some g →
      Untangled ctx.naming ctx.sidecar first g) :
    Gains first (fun _ => True) U s (entries ctx ids) fun V cs => ∀ c ∈ Dict.values cs, V c := by
  induction ids generalizing U s with
  | nil => exact .pure (by simp [Dict.values])
  | cons id rest ih =>
    obtain ⟨hid, hrest⟩ := List.forall_mem_cons.mp hids
    have hfirst : Gains first (fun _ => True) U s (follow ctx (record ctx ctx.maxDepth) id)
        fun V c => V c :=
      gains_follow hsupplied fun g hg U s =>
        (gains_record hplugins hsupplied _ (hid g hg)).mono (fun _ _ => trivial) fun _ _ h => h
    refine hfirst.bind fun V t c _ hc => (ih hrest).bind fun W u cs hVW hcs => .pure ?_
    exact List.forall_mem_cons.mpr ⟨hVW.kept c hc, hcs⟩

theorem gains_root (hplugins : KnownPlugins ctx.registry) (hsupplied : ctx.supplied = [])
    (disaggregatedOnly : Bool)
    (hsidecar : ctx.sidecar = definedIn ctx.naming (.map f))
    (hstarts : ∀ g ∈ starts ctx.naming (.map f), Untangled ctx.naming ctx.sidecar first g) :
    Gains first (fun _ => True) U s (root ctx disaggregatedOnly f)
      fun V loaded => ∀ c ∈ loaded.roots, V c := by
  unfold root
  by_cases hroot : Dict.has f ctx.naming.protocol.componentType = true
  · have hf : Untangled ctx.naming ctx.sidecar first f :=
      hstarts f (by simp [starts, Tree.entries?, hroot])
    simp only [if_pos hroot]
    have hrecord : Gains first (fun _ => True) U s (record ctx ctx.maxDepth f) fun V c => V c :=
      (gains_record hplugins hsupplied _ hf).mono (fun _ _ => trivial) fun _ _ h => h
    refine hrecord.bind fun V t c _ hc => .pure ?_
    simpa [Loaded.roots] using hc
  · simp only [if_neg hroot]
    cases hget : Dict.get? f ctx.naming.protocol.referencedComponents with
    | none => exact .throw _
    | some sidecar =>
      have hids : ∀ id ∈ Dict.keys (sidecar.entries?.getD []), ∀ g,
          Dict.get? ctx.sidecar id = some g → Untangled ctx.naming ctx.sidecar first g := by
        intro id hid g hg
        apply hstarts g
        simp only [starts, Tree.entries?, Option.getD_some, if_neg hroot, hget, ← hsidecar]
        exact List.mem_filterMap.mpr ⟨id, hid, hg⟩
      cases disaggregatedOnly with
      | false => exact .throw _
      | true => exact (gains_entries hplugins hsupplied hids).bind fun V t cs _ hcs => .pure hcs

theorem stock_empty (supply : Supply) :
    Stock supply.nextId (fun _ => False) ⟨[], supply⟩ := by
  refine ⟨Nat.le_refl _, ?_, ?_, ?_, ?_, ?_, ?_⟩
  · exact fun _ h => h.elim
  · intro key c hc
    simp [LoadState.resolved?] at hc
  · exact fun _ h => h.elim
  · exact fun _ _ h => h.elim
  · exact fun _ h => h.elim
  · exact fun _ _ h => h.elim

end Load

/-- In what a load gives, components of one id are one object, if no record leads to one of its own
id. -/
theorem load_one_object {extensions : List Plugin} {registry : Registry} {options : LoadOptions}
    {document : Tree} {supply supply' : Supply} {loaded : Loaded}
    (hregistry : Registry.ofPlugins extensions = .ok registry)
    (hgeneric : ∀ plugin ∈ extensions, plugin.IsGeneric)
    (hsupplied : options.supplied = [])
    (huntangled : ∀ f ∈ Load.starts options.naming document.strip,
      Load.Untangled options.naming (Load.definedIn options.naming document.strip)
        supply.nextId f)
    (hload : load registry options document supply = .ok (loaded, supply')) :
    ∀ a ∈ loaded.roots, ∀ b ∈ loaded.roots, ∀ d e, Component.Reaches Component.children a d →
      Component.Reaches Component.children b e →
      (d.id = e.id ↔ d.isSameObject e = true) ∧ (d.isSameObject e = true → d = e) := by
  unfold load at hload
  obtain ⟨_, -, hload⟩ := bind_ok hload
  generalize document.strip = t at huntangled hload
  cases t with
  | map fields =>
    obtain ⟨release, -, hload⟩ := bind_ok hload
    obtain ⟨scan, hscan, hload⟩ := bind_ok hload
    obtain ⟨⟨result, state⟩, hrun, hresult⟩ := bind_ok hload
    obtain ⟨rfl, -⟩ := Prod.mk.inj (Except.ok.inj hresult)
    have hdefined := Load.definedIn_of_ofDocument hscan
    obtain ⟨V, hV, -, hroots⟩ := Load.gains_root (U := fun _ => False)
      (Load.knownPlugins_of_generic hregistry hgeneric) hsupplied options.disaggregatedOnly hdefined
      (hdefined ▸ huntangled) (Load.stock_empty supply) result state hrun
    intro a ha b hb d e hd he
    have hVd := hV.mem_of_reaches (hroots a ha) hd
    have hVe := hV.mem_of_reaches (hroots b hb) he
    have hobject : d.isSameObject e = true → d = e := by
      intro h
      exact hV.objects d e hVd hVe (by simpa [Component.isSameObject] using h)
    refine ⟨⟨fun hid => ?_, fun h => by rw [hobject h]⟩, hobject⟩
    rw [hV.unique d e hVd hVe hid]
    simp [Component.isSameObject]
  | _ => cases hload

/-! An agent with a tool that is there twice: as a record, and as a sidecar entry under another
name. -/
namespace Sample

def modelRecord : Dict Tree :=
  [("component_type", .string "OpenAiConfig"), ("id", .string "m"), ("name", .string "Model"),
    ("model_id", .string "m")]

def toolRecord : Dict Tree :=
  [("component_type", .string "ServerTool"), ("id", .string "t"), ("name", .string "Tool")]

def agentRecord : Dict Tree :=
  [("component_type", .string "Agent"), ("id", .string "a"), ("name", .string "Agent"),
    ("system_prompt", .string "Help."), ("llm_config", .map [("$component_ref", .string "model")]),
    ("tools", .list [.map toolRecord, .map [("$component_ref", .string "tool")]]),
    ("$referenced_components", .map [("model", .map modelRecord), ("tool", .map toolRecord)])]

/-- The sidecar entries within the record of the agent. -/
def agentEntries : Dict (Dict Tree) := [("model", modelRecord), ("tool", toolRecord)]

theorem definedIn_agentRecord :
    Load.definedIn .canonical (.map agentRecord) = agentEntries := by
  with_unfolding_all rfl

theorem leadsTo_agentRecord {g : Dict Tree}
    (h : Load.LeadsTo .canonical agentEntries agentRecord g) :
    g = modelRecord ∨ g = toolRecord := by
  have hall : (Load.uses .canonical agentRecord).filterMap (Load.target? .canonical agentEntries) =
      [modelRecord, toolRecord, toolRecord] := rfl
  rw [Load.LeadsTo, hall] at h
  simpa using h

theorem fresh_of_short {f : Dict Tree} {x : String} (hx : Load.declaredId? f = some x)
    (hshort : x.length < 26) :
    ∀ y, Load.declaredId? f = some y → ∀ n, 0 ≤ n → y ≠ Supply.idOf n := by
  rintro y hy n - rfl
  obtain rfl := Option.some.inj (hx.symm.trans hy)
  exact absurd (Supply.length_idOf n) (Nat.not_le.mpr hshort)

theorem not_leadsTo {f g : Dict Tree} (h : Load.uses .canonical f = []) :
    ¬ Load.LeadsTo .canonical agentEntries f g := by
  rw [Load.LeadsTo, h]
  exact List.not_mem_nil

theorem not_idsBelow {f : Dict Tree} {x : String} (h : Load.uses .canonical f = []) :
    ¬ Load.IdsBelow .canonical agentEntries f x := by
  rw [Load.idsBelow_iff]
  rintro ⟨g, hg, -⟩
  exact not_leadsTo h hg

theorem untangled_agentRecord : Load.Untangled .canonical agentEntries 0 agentRecord := by
  have hmodel : Load.uses .canonical modelRecord = [] := rfl
  have htool : Load.uses .canonical toolRecord = [] := rfl
  refine .intro (fun g hg => ?_) (fun x hx hbelow => ?_) (fresh_of_short rfl (by decide))
  · rcases leadsTo_agentRecord hg with rfl | rfl
    · exact .intro (fun g hg => (not_leadsTo hmodel hg).elim) (fun x _ => not_idsBelow hmodel)
        (fresh_of_short rfl (by decide))
    · exact .intro (fun g hg => (not_leadsTo htool hg).elim) (fun x _ => not_idsBelow htool)
        (fresh_of_short rfl (by decide))
  · obtain rfl := Option.some.inj hx
    obtain ⟨g, hg, hid⟩ := Load.idsBelow_iff.mp hbelow
    rcases leadsTo_agentRecord hg with rfl | rfl
    · rcases Load.idsFrom_iff.mp hid with hid | hid
      · exact absurd hid (by decide)
      · exact not_idsBelow hmodel hid
    · rcases Load.idsFrom_iff.mp hid with hid | hid
      · exact absurd hid (by decide)
      · exact not_idsBelow htool hid

/-- An agent whose model is a record of the same id. -/
def nestedRecord : Dict Tree :=
  [("component_type", .string "Agent"), ("agentspec_version", .string "26.1.0"),
    ("id", .string "x"), ("name", .string "outer"),
    ("llm_config", .map [("component_type", .string "OpenAiConfig"), ("id", .string "x"),
      ("name", .string "inner"), ("model_id", .string "m")]),
    ("system_prompt", .string "p")]

end Sample

theorem load_one_object_agent :
    ∃ loaded supply, load .builtin .default (.map Sample.agentRecord) ⟨0, 0⟩ =
        .ok (loaded, supply) ∧
      (loaded.roots.map fun c => c.children.map (·.id)) = [["m", "t", "t"]] ∧
      ∀ c ∈ loaded.roots, ∀ d ∈ c.children, ∀ e ∈ c.children, d.id = e.id → d = e := by
  have hloads : (load .builtin .default (.map Sample.agentRecord) ⟨0, 0⟩).toOption.any (fun p =>
      (p.1.roots.map fun c => c.children.map (·.id)) == [["m", "t", "t"]]) = true := by
    decide +kernel
  obtain ⟨⟨loaded, supply⟩, hload, hids⟩ := exists_of_any hloads
  have hregistry : Registry.ofPlugins [] = .ok .builtin := rfl
  have hstarts : ∀ f ∈ Load.starts .canonical (Tree.map Sample.agentRecord).strip,
      Load.Untangled .canonical
        (Load.definedIn .canonical (Tree.map Sample.agentRecord).strip) 0 f := by
    have hstrip : (Tree.map Sample.agentRecord).strip = .map Sample.agentRecord := rfl
    have hroot : Load.starts .canonical (.map Sample.agentRecord) = [Sample.agentRecord] := rfl
    rw [hstrip, hroot, Sample.definedIn_agentRecord, List.forall_mem_singleton]
    exact Sample.untangled_agentRecord
  have hone := load_one_object hregistry (fun plugin hp => absurd hp List.not_mem_nil) rfl hstarts
    hload
  refine ⟨loaded, supply, hload, by simpa using hids, fun c hc d hd e he hid => ?_⟩
  obtain ⟨hiff, heq⟩ := hone c hc c hc d e (.step hd (.refl d)) (.step he (.refl e))
  exact heq (hiff.mp hid)

/-- A record within a record of its own id becomes an object of its own. -/
theorem load_nested_id_two_objects :
    ∃ loaded supply, load .builtin .default (.map Sample.nestedRecord) ⟨0, 0⟩ =
        .ok (loaded, supply) ∧
      ∃ c ∈ loaded.roots, ∃ d, Component.Reaches Component.children c d ∧ c.id = d.id ∧
        c.isSameObject d = false := by
  have hloads : (load .builtin .default (.map Sample.nestedRecord) ⟨0, 0⟩).toOption.any (fun p =>
      p.1.roots.any fun c => c.children.any fun d => c.id == d.id && !c.isSameObject d) = true := by
    decide +kernel
  obtain ⟨⟨loaded, supply⟩, hload, hroots⟩ := exists_of_any hloads
  obtain ⟨c, hc, hkids⟩ := List.any_eq_true.mp hroots
  obtain ⟨d, hd, hdiffer⟩ := List.any_eq_true.mp hkids
  obtain ⟨hid, hobject⟩ := Bool.and_eq_true_iff.mp hdiffer
  exact ⟨loaded, supply, hload, c, hc, d, .step hd (.refl d), by simpa using hid,
    by simpa using hobject⟩

end AgentGraph
