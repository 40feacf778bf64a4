import AgentGraph.Proofs.Load.Filled
import AgentGraph.Proofs.LoadedGraph
/-!
# Supplied components come first

A reference to the id of a supplied component gives this component and nothing else, as long as no
record that the load comes to takes that id for itself: a record is noted under its id when it is
built, and a reference that is followed later gives the object of the record. The sidecar entry of a
supplied id is never looked at, whatever it holds.
-/
namespace AgentGraph
open List (Forall₂)

namespace Load

/-- The sidecar entries of a document whose ids were not supplied. -/
def openEntries (naming : NamingMode) (supplied : Dict Component) (document : Tree) :
    Dict (Dict Tree) :=
  (definedIn naming document).filter fun entry => !Dict.has supplied entry.1

/-- The records that a load comes to: the root, or the open entries of a sidecar, and then those
that a record leads to. -/
inductive Meets (naming : NamingMode) (supplied : Dict Component) (document : Tree) :
    Dict Tree → Prop
  | root {fields : Dict Tree} : document = .map fields →
      Dict.has fields naming.protocol.componentType = true → Meets naming supplied document fields
  | entry {fields f : Dict Tree} {sidecar : Tree} {key : String} : document = .map fields →
      Dict.has fields naming.protocol.componentType = false →
      Dict.get? fields naming.protocol.referencedComponents = some sidecar →
      key ∈ Dict.keys (sidecar.entries?.getD []) →
      Dict.get? (openEntries naming supplied document) key = some f →
      Meets naming supplied document f
  | step {f g : Dict Tree} : Meets naming supplied document f →
      LeadsTo naming (openEntries naming supplied document) f g → Meets naming supplied document g

/-- A record becomes known under the id that it declares, or under one that is made up. -/
def MayTake (nextId : Nat) (f : Dict Tree) (id : String) : Prop :=
  match declaredId? f with
  | some x => x = id
  | none => ∃ n, nextId ≤ n ∧ Supply.idOf n = id

/-- If the use is a reference to the id, the component is the one supplied for it. -/
def Obeys (naming : NamingMode) (id : String) (s : Component) (use : Dict Tree) (c : Component) :
    Prop :=
  use = [(naming.protocol.componentRef, .string id)] → c = s

/-- A component was supplied, or is used by a supplied one, or it was read from a record to which
the load came. In the last case each reference to the id gave the component supplied for it. -/
inductive Origin (naming : NamingMode) (supplied : Dict Component) (document : Tree) (id : String)
    (s d : Component) : Prop
  | supplied {a : Component} : a ∈ Dict.values supplied →
      Component.Reaches Component.children a d → Origin naming supplied document id s d
  | record {f : Dict Tree} : Meets naming supplied document f →
      ReadFrom naming (Obeys naming id s) f d → Origin naming supplied document id s d

/-- The origin of a component is known, and that of each that it uses. -/
def Explained (naming : NamingMode) (supplied : Dict Component) (document : Tree) (id : String)
    (s c : Component) : Prop :=
  ∀ d, Component.Reaches Component.children c d → Origin naming supplied document id s d

/-- So far every id stands for a component that passes a test, and a supplied id for the one
supplied for it. -/
structure Settled (first : Nat) (id : String) (s : Component) (A : Component → Prop)
    (t : LoadState) : Prop where
  supply : first ≤ t.supply.nextId
  known : ∀ key c, t.resolution.get? key = some (.resolved c) → A c ∧ (key = id → c = s)

/-- What stays fixed while a document is loaded: a test that the records pass to which the load
comes, and another for components, which one that was read from such a record passes. -/
structure Precedence (ctx : Context) (M : Dict Tree → Prop) (A : Component → Prop) (first : Nat)
    (id : String) (s : Component) : Prop where
  plugins : KnownPlugins ctx.registry
  supplied : ∀ key c, Dict.get? ctx.supplied key = some c → A c
  answer : Dict.get? ctx.supplied id = some s
  nested : ∀ f use, M f → use ∈ uses ctx.naming f →
    Dict.get? use ctx.naming.protocol.componentRef = none → M use
  referenced : ∀ f key g, M f →
    [(ctx.naming.protocol.componentRef, .string key)] ∈ uses ctx.naming f →
    Dict.get? ctx.supplied key = none → Dict.get? ctx.sidecar key = some g → M g
  free : ∀ f, M f → ¬ MayTake first f id
  built : ∀ f c, M f →
    ReadFrom ctx.naming (fun use d => A d ∧ Obeys ctx.naming id s use d) f c → A c

variable {first : Nat} {id key : String} {s : Component} {A : Component → Prop} {t : LoadState}
  {ctx : Context} {M : Dict Tree → Prop} {f : Dict Tree}

theorem Settled.put (h : Settled first id s A t) {r : Resolution}
    (hr : ∀ c, r = .resolved c → A c ∧ (key = id → c = s)) :
    Settled first id s A { t with resolution := t.resolution.put key r } := by
  refine ⟨h.supply, fun other c hother => ?_⟩
  rw [Dict.get?_put] at hother
  split at hother
  · rename_i hkey
    exact hkey ▸ hr c (Option.some.inj hother)
  · exact h.known other c hother

theorem delivers_setResolution {r : Resolution}
    (hr : ∀ c, r = .resolved c → A c ∧ (key = id → c = s)) :
    Delivers (Settled first id s A) (setResolution key r) fun _ => True :=
  fun _ hs => ⟨trivial, hs.put hr⟩

theorem delivers_freshHandle : Delivers (Settled first id s A) freshHandle fun _ => True :=
  fun _ hs => ⟨trivial, hs.supply, hs.known⟩

/-- An id that is made up is not one of those made up before. -/
theorem delivers_freshId : Delivers (Settled first id s A) freshId fun x =>
    ∃ n, first ≤ n ∧ Supply.idOf n = x :=
  fun t hs => ⟨⟨t.supply.nextId, hs.supply, rfl⟩, Nat.le_succ_of_le hs.supply, hs.known⟩

/-- An entry that was found by the scan is open if its id was not supplied. -/
theorem get?_openEntries {naming : NamingMode} {supplied : Dict Component} {document : Tree}
    {scan : Scan} {g : Dict Tree}
    (hscan : Scan.ofDocument naming.protocol supplied document = .ok scan)
    (hnone : Dict.get? supplied key = none) (hg : Dict.get? scan.defined key = some g) :
    Dict.get? (openEntries naming supplied document) key = some g := by
  have hhas : Dict.has supplied key = false := by
    rw [← Bool.not_eq_true, Dict.has_iff]
    exact Dict.get?_eq_none_iff.mp hnone
  have hfilter := Dict.get?_filter (definedIn naming document) (fun k => !Dict.has supplied k) key
  rw [openEntries, hfilter, hhas, ← definedIn_of_ofDocument hscan, hg]
  rfl

/-- A component that was read from a record is explained if those that it uses are. -/
theorem explained_of_readFrom {naming : NamingMode} {supplied : Dict Component} {document : Tree}
    {c : Component} (hf : Meets naming supplied document f)
    (hread : ReadFrom naming (fun use d => Explained naming supplied document id s d ∧
      Obeys naming id s use d) f c) : Explained naming supplied document id s c := by
  intro d hd
  rcases Component.reaches_iff.mp hd with rfl | ⟨kid, hkid, hd⟩
  · exact .record hf (hread.mono fun _ _ h => h.2)
  · exact hread.filled.held (fun _ _ h => h.1) kid hkid d hd

theorem precedence {registry : Registry} {naming : NamingMode} {supplied : Dict Component}
    {document : Tree} {scan : Scan} (hplugins : KnownPlugins registry)
    (hs : Dict.get? supplied id = some s)
    (hfree : ∀ f, Meets naming supplied document f → ¬ MayTake first f id)
    (hscan : Scan.ofDocument naming.protocol supplied document = .ok scan) (release : Release)
    (maxDepth : Nat) :
    Precedence ⟨registry, naming, release, supplied, scan.defined, maxDepth⟩
      (Meets naming supplied document) (Explained naming supplied document id s) first id s where
  plugins := hplugins
  supplied key c hc d hd :=
    .supplied (List.mem_map.mpr ⟨(key, c), Dict.mem_of_get? hc, rfl⟩) hd
  answer := hs
  nested f use hf huse href := hf.step (leadsTo_nested huse href)
  referenced f key g hf huse hnone hg :=
    hf.step (leadsTo_referenced huse (by simp [Dict.get?]) (get?_openEntries hscan hnone hg))
  free := hfree
  built f c hf hread := explained_of_readFrom hf hread

variable (P : Precedence ctx M A first id s)
include P

/-- Following a reference: a supplied id stands for its component before and after. -/
theorem delivers_follow {load : Dict Tree → LoadM Component}
    (hload : ∀ g, Dict.get? ctx.supplied key = none → Dict.get? ctx.sidecar key = some g →
      Delivers (Settled first id s A) (load g) A) :
    Delivers (Settled first id s A) (follow ctx load key) fun c => A c ∧ (key = id → c = s) := by
  unfold follow
  refine .get fun t ht => ?_
  split
  · exact .throw _
  · rename_i c hc
    exact .pure (ht.known key c hc)
  · split
    · rename_i c hc
      have hsame : key = id → c = s := by
        rintro rfl
        exact Option.some.inj (hc.symm.trans P.answer)
      have hA := P.supplied key c hc
      refine (delivers_setResolution ?_).bind fun _ _ => .pure ⟨hA, hsame⟩
      rintro _ ⟨⟩
      exact ⟨hA, hsame⟩
    · rename_i hnone
      have hother : key ≠ id := by
        rintro rfl
        exact absurd (hnone.symm.trans P.answer) (by simp)
      split
      · exact .throw _
      · rename_i g hg
        refine (delivers_setResolution (by rintro _ ⟨⟩)).bind fun _ _ => ?_
        refine (hload g hnone hg).bind fun c hc => ?_
        refine (delivers_setResolution ?_).bind fun _ _ => .pure ⟨hc, fun h => absurd h hother⟩
        rintro _ ⟨⟩
        exact ⟨hc, fun h => absurd h hother⟩

/-- Building a component leaves alone what the supplied id stands for, since the record takes
another id. -/
theorem delivers_build {plugin : Plugin} {reader : Reader} {type x : String}
    (hf : M f) (htype : typeOf ctx.naming f = .ok type)
    (hdeclared : ∀ y, declaredId? f = some y → x = y)
    (hx : x ≠ id)
    (hread : Delivers (Settled first id s A) (plugin.read reader ⟨f, ctx.naming, type⟩) fun k =>
      k.componentType = type ∧
        Filled ctx.naming (fun use d => A d ∧ Obeys ctx.naming id s use d) f k) :
    Delivers (Settled first id s A) (build plugin reader ⟨f, ctx.naming, type⟩ x) A := by
  unfold build
  refine .lift fun name hname => .lift fun description hdescription => ?_
  refine .lift fun metadata hmetadata => ?_
  refine hread.bind fun kind hkind => delivers_freshHandle.bind fun handle _ => ?_
  obtain ⟨rfl, hfilled⟩ := hkind
  have hA : A (.mk handle x name description metadata kind) :=
    P.built f _ hf ⟨htype, hdeclared, hname, hdescription, hmetadata, hfilled⟩
  refine (delivers_setResolution ?_).bind fun _ _ => .pure hA
  rintro _ ⟨⟩
  exact ⟨hA, fun h => absurd h hx⟩

/-- The object of another id passes the test: the one that the id stands for, or a new one. -/
theorem delivers_resolve {plugin : Plugin} {reader : Reader} {type x : String}
    (hf : M f) (htype : typeOf ctx.naming f = .ok type)
    (hdeclared : ∀ y, declaredId? f = some y → x = y)
    (hx : x ≠ id)
    (hread : Delivers (Settled first id s A) (plugin.read reader ⟨f, ctx.naming, type⟩) fun k =>
      k.componentType = type ∧
        Filled ctx.naming (fun use d => A d ∧ Obeys ctx.naming id s use d) f k) :
    Delivers (Settled first id s A)
      (do
        match (← get).resolved? x with
        | some c => return c
        | none => build plugin reader ⟨f, ctx.naming, type⟩ x)
      A := by
  refine .get fun t ht => ?_
  cases hget : t.resolved? x with
  | some c => exact .pure (ht.known x c (LoadState.resolved?_eq_some.mp hget)).1
  | none => exact delivers_build P hf htype hdeclared hx hread

/-- A record to which the load comes gives a component that passes the test. -/
theorem delivers_record (room : Nat) (hf : M f) :
    Delivers (Settled first id s A) (record ctx room f) A := by
  induction room generalizing f with
  | zero => exact .throw _
  | succ room ih =>
    have hreader : Reader.Pairs (Settled first id s A)
        (fun use d => A d ∧ Obeys ctx.naming id s use d) (· ∈ uses ctx.naming f)
        ⟨ctx.release, ctx.naming, record ctx room, follow ctx (record ctx room)⟩ := by
      constructor
      · intro use huse href
        by_cases hlooks : Reader.looksLikeComponent ctx.naming use = true
        · refine (ih (P.nested f use hf (huse hlooks) href)).mono fun c hc => ⟨hlooks, hc, ?_⟩
          rintro rfl
          simp [Dict.get?] at href
        · refine .never fun t c u hrun => ?_
          exact absurd (looksLikeComponent_of_record hrun) hlooks
      · intro key huse
        have hfollow := delivers_follow P fun g hnone hg =>
          ih (P.referenced f key g hf huse hnone hg)
        refine hfollow.mono fun c ⟨hA, hsame⟩ => ?_
        refine ⟨hA, fun hrefers => hsame ?_⟩
        simpa using hrefers
    unfold record
    refine .lift fun type htype => .lift fun plugin hplugin => .lift fun id? hid? => ?_
    have hread : Delivers (Settled first id s A) (plugin.read
          ⟨ctx.release, ctx.naming, record ctx room, follow ctx (record ctx room)⟩
          ⟨f, ctx.naming, type⟩) fun k => k.componentType = type ∧
        Filled ctx.naming (fun use d => A d ∧ Obeys ctx.naming id s use d) f k :=
      delivers_pluginRead P.plugins htype hplugin hreader
    have hdeclared := optionalText_id hid?
    have hfree : ∀ x, MayTake first f x → x ≠ id := by
      rintro x hx rfl
      exact P.free f hf hx
    cases id? with
    | some x =>
      refine delivers_resolve P hf htype (fun y hy => ?_) (hfree x ?_) hread
      · exact Option.some.inj (hdeclared.symm.trans hy)
      · rw [MayTake, hdeclared]
    | none =>
      refine delivers_freshId.bind fun x hx => ?_
      refine delivers_resolve P hf htype (fun y hy => ?_) (hfree x ?_) hread
      · cases hdeclared.symm.trans hy
      · rw [MayTake, hdeclared]
        exact hx

theorem delivers_entries {ids : List String}
    (hids : ∀ key ∈ ids, ∀ g, Dict.get? ctx.supplied key = none →
      Dict.get? ctx.sidecar key = some g → M g) :
    Delivers (Settled first id s A) (entries ctx ids) fun found =>
      ∀ c ∈ Dict.values found, A c := by
  induction ids with
  | nil => exact .pure (by simp [Dict.values])
  | cons key rest ih =>
    obtain ⟨hkey, hrest⟩ := List.forall_mem_cons.mp hids
    have hfollow := delivers_follow P fun g hnone hg =>
      delivers_record P ctx.maxDepth (hkey g hnone hg)
    refine hfollow.bind fun c hc => (ih hrest).bind fun found hfound => .pure ?_
    exact List.forall_mem_cons.mpr ⟨hc.1, hfound⟩

theorem delivers_root (disaggregatedOnly : Bool)
    (hroot : Dict.has f ctx.naming.protocol.componentType = true → M f)
    (hentries : Dict.has f ctx.naming.protocol.componentType = false → ∀ sidecar,
      Dict.get? f ctx.naming.protocol.referencedComponents = some sidecar →
      ∀ key ∈ Dict.keys (sidecar.entries?.getD []), ∀ g, Dict.get? ctx.supplied key = none →
        Dict.get? ctx.sidecar key = some g → M g) :
    Delivers (Settled first id s A) (root ctx disaggregatedOnly f) fun loaded =>
      ∀ c ∈ loaded.components, A c := by
  unfold root
  simp only
  split
  · rename_i htype
    refine (delivers_record P ctx.maxDepth (hroot htype)).bind fun c hc => .pure ?_
    exact List.forall_mem_singleton.mpr hc
  · rename_i htype
    split
    · exact .throw _
    · rename_i sidecar hsidecar
      split
      · exact .throw _
      · have hids := hentries (by simpa using htype) sidecar hsidecar
        exact (delivers_entries P hids).bind fun found hfound => .pure hfound

end Load

/-- If no record to which a load comes takes the id of a supplied component, every reference to this
id gave the supplied component: each component that the load gives back, or that one of these uses,
was supplied itself or was read from a record with its references so answered. -/
theorem load_supplied {extensions : List Plugin} {registry : Registry} {options : LoadOptions}
    {document : Tree} {supply after : Supply} {loaded : Loaded} {id : String} {s : Component}
    (hregistry : Registry.ofPlugins extensions = .ok registry)
    (hgeneric : ∀ plugin ∈ extensions, plugin.IsGeneric)
    (hs : Dict.get? options.supplied id = some s)
    (hfree : ∀ f, Load.Meets options.naming options.supplied document.strip f →
      ¬ Load.MayTake supply.nextId f id)
    (hload : load registry options document supply = .ok (loaded, after)) :
    ∀ c ∈ loaded.components, ∀ d, Component.Reaches Component.children c d →
      Load.Origin options.naming options.supplied document.strip id s d := by
  suffices hall : ∀ c ∈ loaded.components,
      Load.Explained options.naming options.supplied document.strip id s c from hall
  unfold load at hload
  obtain ⟨_, -, hload⟩ := bind_ok hload
  generalize document.strip = t at hfree hload ⊢
  cases t with
  | map fields =>
    obtain ⟨release, -, hload⟩ := bind_ok hload
    obtain ⟨scan, hscan, hload⟩ := bind_ok hload
    obtain ⟨⟨found, state⟩, hrun, hload⟩ := bind_ok hload
    obtain ⟨rfl, -⟩ := Prod.mk.inj (Except.ok.inj hload)
    have P := Load.precedence (Load.knownPlugins_of_generic hregistry hgeneric) hs hfree hscan
      release options.maxDepth
    have hroot := Load.delivers_root P options.disaggregatedOnly (.root rfl)
      fun htype sidecar hsidecar key hkey g hnone hg =>
        .entry rfl htype hsidecar hkey (Load.get?_openEntries hscan hnone hg)
    have hempty : Load.Settled supply.nextId id s
        (Load.Explained options.naming options.supplied (.map fields) id s) ⟨[], supply⟩ :=
      ⟨Nat.le_refl _, fun _ _ h => nomatch h⟩
    exact ((hroot.run hempty).of_ok hrun).1
  | _ => cases hload

/-! An agent with a tool of its own, whose model is supplied although the document has an entry for
it. -/
namespace Sample

def toolUserRecord : Dict Tree :=
  [("component_type", .string "Agent"), ("id", .string "a"), ("name", .string "Agent"),
    ("system_prompt", .string "Help."), ("llm_config", .map [("$component_ref", .string "model")]),
    ("tools", .list [.map toolRecord]),
    ("$referenced_components", .map [("model", .map modelRecord)])]

theorem meets_toolUser {f : Dict Tree}
    (h : Load.Meets .canonical suppliedModel.supplied (.map toolUserRecord) f) :
    f = toolUserRecord ∨ f = toolRecord := by
  have hopen : Load.openEntries .canonical suppliedModel.supplied (.map toolUserRecord) = [] := by
    with_unfolding_all rfl
  induction h with
  | root hfields _ => exact .inl (Tree.map.inj hfields).symm
  | entry hfields htype =>
    rw [← Tree.map.inj hfields] at htype
    cases htype
  | step _ hleads ih =>
    rw [hopen] at hleads
    rcases ih with rfl | rfl
    · have hall : (Load.uses .canonical toolUserRecord).filterMap (Load.target? .canonical []) =
          [toolRecord] := rfl
      rw [Load.LeadsTo, hall] at hleads
      exact .inr (List.mem_singleton.mp hleads)
    · cases hleads

end Sample

theorem load_supplied_toolUser : ∃ loaded after,
    load .builtin Sample.suppliedModel (.map Sample.toolUserRecord) ⟨2, 0⟩ = .ok (loaded, after) ∧
      (loaded.components.map fun c => c.children.map (·.handle)) = [[Sample.model.handle, 2]] ∧
      ∀ c ∈ loaded.components, ∀ d, Component.Reaches Component.children c d →
        Load.Origin .canonical Sample.suppliedModel.supplied (.map Sample.toolUserRecord) "model"
          Sample.model d := by
  have hrun : (load .builtin Sample.suppliedModel (.map Sample.toolUserRecord)
      ⟨2, 0⟩).toOption.any (fun p => (p.1.components.map fun c => c.children.map (·.handle)) ==
        [[Sample.model.handle, 2]]) = true := by decide +kernel
  obtain ⟨⟨loaded, after⟩, hload, hheld⟩ := exists_of_any hrun
  have hregistry : Registry.ofPlugins [] = .ok .builtin := rfl
  have hfree : ∀ f, Load.Meets .canonical Sample.suppliedModel.supplied
      (Tree.map Sample.toolUserRecord).strip f → ¬ Load.MayTake 0 f "model" := by
    have hstrip : (Tree.map Sample.toolUserRecord).strip = .map Sample.toolUserRecord := rfl
    rw [hstrip]
    intro f hf
    rcases Sample.meets_toolUser hf with rfl | rfl
    · exact fun h : "a" = "model" => absurd h (by decide)
    · exact fun h : "t" = "model" => absurd h (by decide)
  exact ⟨loaded, after, hload, by simpa using hheld,
    load_supplied hregistry (fun plugin hp => absurd hp List.not_mem_nil) rfl hfree hload⟩

/-! Two agents that use a model of one id: the manager has it as a record, and the worker refers to
the supplied one. -/
namespace Sample

def mine : Component :=
  .mk 0 "m" "mine" none []
    (.modelConfig
      { provider := .openAi, modelId := "m", url := none, apiKey := none, apiType := none,
        parameters := none })

def workerRecord : Dict Tree :=
  [("component_type", .string "Agent"), ("id", .string "b"), ("name", .string "b"),
    ("llm_config", .map [("$component_ref", .string "m")]), ("system_prompt", .string "p")]

def teamRecord : Dict Tree :=
  [("component_type", .string "ManagerWorkers"), ("agentspec_version", .string "26.1.0"),
    ("id", .string "g"), ("name", .string "g"),
    ("group_manager", .map [("component_type", .string "Agent"), ("id", .string "a"),
      ("name", .string "a"), ("llm_config", .map [("component_type", .string "OpenAiConfig"),
        ("id", .string "m"), ("name", .string "theirs"), ("model_id", .string "m")]),
      ("system_prompt", .string "p")]),
    ("workers", .list [.map workerRecord])]

end Sample

/-- A record that was built before takes the id, and a reference gives its object in place of the
supplied one. -/
theorem load_prefers_record : ∃ loaded after,
    load .builtin (LoadOptions.default.supplyOne Sample.mine) (.map Sample.teamRecord) ⟨1, 0⟩ =
        .ok (loaded, after) ∧
      Load.uses .canonical Sample.workerRecord = [[("$component_ref", .string "m")]] ∧
      ∃ c ∈ loaded.components, ∃ worker ∈ c.children, worker.id = "b" ∧
        ∃ model ∈ worker.children, model.id = Sample.mine.id ∧ model ≠ Sample.mine := by
  have hrun : (load .builtin (LoadOptions.default.supplyOne Sample.mine) (.map Sample.teamRecord)
      ⟨1, 0⟩).toOption.any (fun p => p.1.components.any fun c => c.children.any fun worker =>
        worker.id == "b" && worker.children.any fun model =>
          model.id == Sample.mine.id && model.name == "theirs") = true := by
    decide +kernel
  obtain ⟨⟨loaded, after⟩, hload, hany⟩ := exists_of_any hrun
  obtain ⟨c, hc, hany⟩ := List.any_eq_true.mp hany
  obtain ⟨worker, hworker, hany⟩ := List.any_eq_true.mp hany
  obtain ⟨hid, hany⟩ := Bool.and_eq_true_iff.mp hany
  obtain ⟨model, hmodel, hany⟩ := List.any_eq_true.mp hany
  obtain ⟨hsame, hname⟩ := Bool.and_eq_true_iff.mp hany
  refine ⟨loaded, after, hload, rfl, c, hc, worker, hworker, by simpa using hid, model, hmodel,
    by simpa using hsame, ?_⟩
  rintro rfl
  exact absurd hname (by decide)

end AgentGraph
