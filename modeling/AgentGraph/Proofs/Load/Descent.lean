import AgentGraph.Proofs.Load.Findings
import AgentGraph.Proofs.Load.Keeps
import AgentGraph.Proofs.OneObject
/-!
# One level down

What it takes for a property of the ids to be kept, and for failures to be admitted, when a reference
is followed, when a record is read, and when a document is loaded: a rule for each, in which the level
below is a hypothesis.
-/
namespace AgentGraph.Load
variable {I J : Dict Resolution → Prop} {F : LoadError → Prop} {ctx : Context} {f : Dict Tree}
  {id : String} {Q : Prop}

/-- What stands in the component fields of a record of a builtin kind. -/
def places (naming : NamingMode) (fields : Dict Tree) : List (Dict Tree) :=
  match Dict.get? fields naming.protocol.componentType with
  | some (.string type) =>
    ((Builtin.componentFields type).filterMap (Record.get? ⟨fields, naming, type⟩)).flatMap
      Tree.mappings
  | _ => []

theorem mem_places {naming : NamingMode} {type : String} {use : Dict Tree}
    (htype : typeOf naming f = .ok type) :
    use ∈ places naming f ↔ ∃ field ∈ Builtin.componentFields type, ∃ value,
      Record.get? ⟨f, naming, type⟩ field = some value ∧ use ∈ value.mappings := by
  simp only [places, typeOf_ok htype, List.mem_flatMap, List.mem_filterMap]
  constructor
  · rintro ⟨value, ⟨field, hfield, hvalue⟩, huse⟩
    exact ⟨field, hfield, value, hvalue, huse⟩
  · rintro ⟨field, hfield, value, hvalue, huse⟩
    exact ⟨value, ⟨field, hfield, hvalue⟩, huse⟩

/-- Whichever plugin reads a record, it asks only for what stands in its component fields or looks
like a component in another field; for a builtin kind it asks for all that stands there. -/
theorem keeps_pluginRead {H T : Dict Tree → Prop} {reader : Reader} {type : String}
    {registry : Registry} {plugin : Plugin} (hplugins : KnownPlugins registry)
    (htype : typeOf reader.naming f = .ok type)
    (hplugin : pluginOf registry type = .ok plugin) (hr : reader.Answers I F H T)
    (hplaces : ∀ use ∈ places reader.naming f, H use)
    (huses : type ∉ Builtin.types → ∀ use ∈ uses reader.naming f, H use) :
    KeepsIds I F (plugin.read reader ⟨f, reader.naming, type⟩) fun _ =>
      type ∈ Builtin.types → ∀ use ∈ places reader.naming f, T use := by
  rcases hplugins type plugin hplugin with
    ⟨hbuiltin, rfl⟩ | ⟨hother, name, version, types, declared, rfl⟩
  · have hstands : Builtin.StandsIn H ⟨f, reader.naming, type⟩ (Builtin.componentFields type) :=
      fun field hfield value hvalue use huse =>
        hplaces use ((mem_places htype).mpr ⟨field, hfield, value, hvalue, huse⟩)
    refine (Builtin.keeps_read hr hstands).mono fun _ hstands _ use huse => ?_
    obtain ⟨field, hfield, value, hvalue, hin⟩ := (mem_places htype).mp huse
    exact hstands field hfield value hvalue use hin
  · have hasked : ∀ pair ∈ Record.ownFields ⟨f, reader.naming, type⟩ declared,
        ∀ use ∈ Reader.outermost reader.naming pair.2, H use := by
      intro pair hpair use huse
      obtain ⟨own, hown, rfl⟩ := List.mem_map.mp hpair
      refine huses hother use (List.mem_flatMap.mpr ⟨own.2, ?_, huse⟩)
      have hfalse : ¬ Builtin.types.contains type = true := by simpa using hother
      simp only [componentTrees, typeOf_ok htype, if_neg hfalse]
      exact List.mem_map.mpr ⟨own, hown, rfl⟩
    refine (Reader.keeps_bagOf hr hasked).bind fun _ _ => .pure ?_
    exact fun hbuiltin => absurd hbuiltin hother

/-- An id under which a record may come to be known: the one that it declares, or any if it declares
none. -/
def MayBeId (f : Dict Tree) (id : String) : Prop := ∀ x, declaredId? f = some x → x = id

theorem typeOf_local {naming : NamingMode} : FailsLocally (typeOf naming f) := by
  unfold typeOf
  simp only
  split
  · exact .error trivial
  · exact .ok _
  · exact .error trivial

theorem pluginOf_local {registry : Registry} {type : String} :
    FailsLocally (pluginOf registry type) := by
  unfold pluginOf
  split
  · exact .ok _
  · exact .error trivial

/-- The rule for references. While an entry is loaded the property may be another one. -/
theorem keeps_follow {load : Dict Tree → LoadM Component}
    (hprogress : ∀ ids, I ids → Dict.get? ids id = some .inProgress → F (.circularReference id))
    (hresolved : ∀ ids c, I ids → Dict.get? ids id = some (.resolved c) → Q)
    (hsupplied : ∀ ids c, I ids → Dict.get? ctx.supplied id = some c →
      Q ∧ I (Dict.put ids id (.resolved c)))
    (habsent : Dict.get? ctx.supplied id = none → Dict.get? ctx.sidecar id = none →
      F (.missingReferences [id]))
    (hbegun : ∀ ids, I ids → J (Dict.put ids id .inProgress))
    (hload : ∀ g, Dict.get? ctx.sidecar id = some g → KeepsIds J F (load g) fun _ => Q)
    (hended : ∀ g ids c, Dict.get? ctx.sidecar id = some g → Q → J ids →
      I (Dict.put ids id (.resolved c))) :
    KeepsIds I F (follow ctx load id) fun _ => Q := by
  unfold follow
  refine Ends.get fun s hs => ?_
  cases hget : s.resolution.get? id with
  | some r =>
    cases r with
    | inProgress => exact Ends.throw (hprogress _ hs hget)
    | resolved c =>
      refine Ends.pure ?_
      rintro _ rfl
      exact ⟨hresolved _ c hs hget, hs⟩
  | none =>
    simp only
    cases hc : Dict.get? ctx.supplied id with
    | some c =>
      obtain ⟨hQ, hI⟩ := hsupplied _ c hs hc
      refine Ends.modify (J := fun s => I s.resolution) ?_ (Preserves.pure hQ)
      rintro _ rfl
      exact hI
    | none =>
      cases hg : Dict.get? ctx.sidecar id with
      | none => exact Ends.throw (habsent hc hg)
      | some g =>
        refine Ends.modify (J := fun s => J s.resolution) (by rintro _ rfl; exact hbegun _ hs) ?_
        refine Ends.bind (hload g hg) fun c => Ends.modify (J := fun s => I s.resolution ∧ Q) ?_ ?_
        · exact fun t ht => ⟨hended g _ c hg ht.1 ht.2, ht.1⟩
        · exact Ends.pure fun t ht => ⟨ht.2, ht.1⟩

/-- The object of a known id: the one that the id stands for, or a new one. -/
theorem keeps_resolve {plugin : Plugin} {reader : Reader} {r : Record}
    (hlocal : ∀ e, e.IsLocal → F e)
    (hread : KeepsIds I F (plugin.read reader r) fun _ => Q)
    (hmet : ∀ ids c, I ids → Dict.get? ids id = some (.resolved c) → Q)
    (hnote : ∀ ids c, Q → I ids → I (Dict.put ids id (.resolved c))) :
    KeepsIds I F
      (do
        match (← get).resolved? id with
        | some c => return c
        | none => build plugin reader r id)
      fun _ => Q := by
  refine Ends.get fun s hs => ?_
  cases hget : s.resolved? id with
  | some c =>
    refine Ends.pure ?_
    rintro _ rfl
    exact ⟨hmet _ c hs (LoadState.resolved?_eq_some.mp hget), hs⟩
  | none =>
    refine Ends.strengthen (I := fun s => I s.resolution) ?_ (by rintro _ rfl; exact hs)
    unfold build
    refine Ends.lift (fun e he => hlocal e (Record.requiredText_local e he)) fun name _ => ?_
    refine Ends.lift (fun e he => hlocal e (Record.optionalText_local e he)) fun description _ => ?_
    refine Ends.lift (fun e he => hlocal e (Record.mapping_local e he)) fun metadata _ => ?_
    refine hread.bind fun kind hQ => keeps_freshHandle.bind fun handle _ => ?_
    exact Ends.modify (J := fun s => I s.resolution) (fun t ht => hnote t.resolution _ hQ ht)
      (Preserves.pure hQ)

/-- The rule for records. The id under which the record is known may be one that it declares or one
that is made up. -/
theorem keeps_record {room : Nat} (hlocal : ∀ e, e.IsLocal → F e)
    (hread : ∀ type plugin, typeOf ctx.naming f = .ok type →
      pluginOf ctx.registry type = .ok plugin →
      KeepsIds I F (plugin.read
        ⟨ctx.release, ctx.naming, record ctx room, follow ctx (record ctx room)⟩
        ⟨f, ctx.naming, type⟩) fun _ => Q)
    (hmet : ∀ ids id c, I ids → Dict.get? ids id = some (.resolved c) → MayBeId f id → Q)
    (hnote : ∀ ids id c, Q → I ids → MayBeId f id → I (Dict.put ids id (.resolved c))) :
    KeepsIds I F (record ctx (room + 1) f) fun _ => Q := by
  unfold record
  refine Ends.lift (fun e he => hlocal e (typeOf_local e he)) fun type htype => ?_
  refine Ends.lift (fun e he => hlocal e (pluginOf_local e he)) fun plugin hplugin => ?_
  refine Ends.lift (fun e he => hlocal e (Record.optionalText_local e he)) fun id? hid? => ?_
  have hdeclared := optionalText_id hid?
  have hresolve (id : String) (hid : MayBeId f id) :=
    keeps_resolve hlocal (hread type plugin htype hplugin)
      (fun ids c hids hget => hmet ids id c hids hget hid)
      (fun ids c hQ hids => hnote ids id c hQ hids hid)
  cases id? with
  | some id => exact hresolve id fun x hx => Option.some.inj (hx.symm.trans hdeclared)
  | none =>
    refine keeps_freshId.bind fun id _ => hresolve id fun x hx => ?_
    exact absurd (hx.symm.trans hdeclared) (Option.some_ne_none x)

/-- A mapping without a discriminator is no record. -/
theorem keeps_untyped {room : Nat} (hlocal : ∀ e, e.IsLocal → F e)
    (hf : Dict.has f ctx.naming.protocol.componentType = false) :
    KeepsIds I F (record ctx room f) fun _ => Q := by
  cases room with
  | zero => exact Ends.throw (hlocal _ trivial)
  | succ room =>
    refine Ends.lift (fun e he => hlocal e (typeOf_local e he)) fun type htype => ?_
    have hkey := Dict.has_iff.mpr (Dict.mem_keys_iff.mpr ⟨_, typeOf_ok htype⟩)
    simp [hf] at hkey

theorem keeps_entries {Q : String → Prop} {ids : List String}
    (h : ∀ id ∈ ids, KeepsIds I F (follow ctx (record ctx ctx.maxDepth) id) fun _ => Q id) :
    KeepsIds I F (entries ctx ids) fun _ => ∀ id ∈ ids, Q id := by
  induction ids with
  | nil => exact .pure fun _ hid => nomatch hid
  | cons id rest ih =>
    obtain ⟨hid, hrest⟩ := List.forall_mem_cons.mp h
    refine hid.bind fun _ hfirst => (ih hrest).bind fun _ hlater => .pure ?_
    exact List.forall_mem_cons.mpr ⟨hfirst, hlater⟩

/-- The rule for what the root of a document stands for. -/
theorem keeps_root {disaggregatedOnly : Bool} (hlocal : ∀ e, e.IsLocal → F e)
    (hrecord : Dict.has f ctx.naming.protocol.componentType = true →
      KeepsIds I F (record ctx ctx.maxDepth f) fun _ => Q)
    (hentries : Dict.has f ctx.naming.protocol.componentType = false → ∀ sidecar,
      Dict.get? f ctx.naming.protocol.referencedComponents = some sidecar →
      KeepsIds I F (entries ctx (Dict.keys (sidecar.entries?.getD []))) fun _ => Q) :
    KeepsIds I F (root ctx disaggregatedOnly f) fun _ => Q := by
  unfold root
  by_cases hroot : Dict.has f ctx.naming.protocol.componentType = true
  · simp only [if_pos hroot]
    exact (hrecord hroot).bind fun _ hQ => .pure hQ
  · simp only [if_neg hroot]
    cases hget : Dict.get? f ctx.naming.protocol.referencedComponents with
    | none => exact Ends.throw (hlocal _ trivial)
    | some sidecar =>
      cases disaggregatedOnly with
      | false => exact Ends.throw (hlocal _ trivial)
      | true =>
        exact (hentries (by simpa using hroot) sidecar hget).bind fun _ hQ => .pure hQ

theorem checkLimits_local {options : LoadOptions} {document : Tree} :
    FailsLocally (checkLimits options document) := by
  unfold checkLimits
  simp only
  split
  · exact .error trivial
  · split
    · exact .error trivial
    · exact .ok _

theorem releaseOf_local {protocol : Protocol} {root : Dict Tree} :
    FailsLocally (releaseOf protocol root) := by
  unfold releaseOf
  simp only
  split
  · exact .ok _
  · split
    · exact .ok _
    · exact .error trivial
  · exact .error trivial

/-- The rule for documents: the scan and the run that begins with no id known. -/
theorem load_ends {registry : Registry} {options : LoadOptions} {document : Tree} {supply : Supply}
    {result : Except LoadError (Loaded × Supply)}
    (hload : load registry options document supply = result) (hlocal : ∀ e, e.IsLocal → F e)
    (hscan : ∀ e, Scan.ofDocument options.naming.protocol options.supplied document.strip =
      .error e → F e)
    (hroot : ∀ fields release scan, document.strip = .map fields →
      Scan.ofDocument options.naming.protocol options.supplied document.strip = .ok scan →
      Ends (·.resolution = []) F
        (root ⟨registry, options.naming, release, options.supplied, scan.defined, options.maxDepth⟩
          options.disaggregatedOnly fields) fun _ _ => Q) :
    match result with
    | .ok _ => Q
    | .error e => F e := by
  rw [← hload, load]
  cases hlimits : checkLimits options document with
  | error e => exact hlocal e (checkLimits_local e hlimits)
  | ok u =>
    simp only [Bind.bind, Except.bind]
    cases hstrip : document.strip with
    | map fields =>
      rw [hstrip] at hscan hroot
      simp only
      cases hrelease : releaseOf options.naming.protocol fields with
      | error e => exact hlocal e (releaseOf_local e hrelease)
      | ok release =>
        simp only
        cases hfound : Scan.ofDocument options.naming.protocol options.supplied (.map fields) with
        | error e => exact hscan e hfound
        | ok scan =>
          have hrun := hroot fields release scan rfl hfound ⟨[], supply⟩ rfl
          simp only [StateT.run]
          split at hrun
          · rename_i hresult
            simp only [hresult]
            exact hrun
          · rename_i hresult
            simp only [hresult]
            exact hrun
    | _ => exact hlocal _ trivial

/-- The stages of a load that ends well. -/
theorem load_ok_iff {registry : Registry} {options : LoadOptions} {document : Tree}
    {supply after : Supply} {loaded : Loaded} :
    load registry options document supply = .ok (loaded, after) ↔ ∃ fields release scan state,
      checkLimits options document = .ok () ∧ document.strip = .map fields ∧
      releaseOf options.naming.protocol fields = .ok release ∧
      Scan.ofDocument options.naming.protocol options.supplied (.map fields) = .ok scan ∧
      root ⟨registry, options.naming, release, options.supplied, scan.defined, options.maxDepth⟩
        options.disaggregatedOnly fields ⟨[], supply⟩ = .ok (loaded, state) ∧
      state.supply = after := by
  constructor
  · intro h
    obtain ⟨_, hlimits, h⟩ := bind_ok h
    cases hstrip : document.strip with
    | map fields =>
      rw [hstrip] at h
      obtain ⟨release, hrelease, h⟩ := bind_ok h
      obtain ⟨scan, hscan, h⟩ := bind_ok h
      obtain ⟨⟨found, state⟩, hrun, h⟩ := bind_ok h
      obtain ⟨rfl, rfl⟩ := Prod.mk.inj (Except.ok.inj h)
      exact ⟨fields, release, scan, state, hlimits, rfl, hrelease, hscan, hrun, rfl⟩
    | _ =>
      rw [hstrip] at h
      cases h
  · rintro ⟨fields, release, scan, state, hlimits, hstrip, hrelease, hscan, hrun, rfl⟩
    simp only [load, hlimits, hstrip, hrelease, hscan, StateT.run, hrun, Bind.bind, Except.bind]
    rfl

end AgentGraph.Load
