import AgentGraph.Proofs.Load.Descent
/-!
# The scan sees every reference

The scan of a document comes to the verdict that a plain recursion over the document gives. Once it
ended well, loading never meets a reference that names nothing or a sidecar that is no mapping of
mappings: every mapping that it comes to, however it comes there, stands in the document.
-/
namespace AgentGraph

namespace Tree

mutual
theorem below_of_mappings {t : Tree} {use : Dict Tree} (h : use ∈ t.mappings) :
    t.Below (.map use) := by
  match t with
  | .map entries =>
    obtain rfl := List.mem_singleton.mp h
    exact .refl
  | .list items =>
    obtain ⟨u, hu, hbelow⟩ := below_of_mappingsInItems h
    exact .head hu hbelow
  | .null | .bool _ | .number _ | .string _ => cases h
theorem below_of_mappingsInItems {ts : List Tree} {use : Dict Tree}
    (h : use ∈ mappingsInItems ts) : ∃ t ∈ ts, t.Below (.map use) := by
  match ts with
  | [] => cases h
  | t :: rest =>
    rcases List.mem_append.mp h with h | h
    · exact ⟨t, List.mem_cons_self, below_of_mappings h⟩
    · obtain ⟨u, hu, hbelow⟩ := below_of_mappingsInItems h
      exact ⟨u, List.mem_cons_of_mem _ hu, hbelow⟩
end

end Tree

namespace Record
variable {r : Record} {field : String} {value : Tree}

theorem mem_values_of_get? (h : r.get? field = some value) : value ∈ Dict.values r.fields := by
  obtain ⟨hget, -⟩ := Option.filter_eq_some_iff.mp h
  exact List.mem_map.mpr ⟨_, Dict.mem_of_get? hget, rfl⟩

end Record

namespace Load
variable {naming : NamingMode} {f use : Dict Tree}

theorem below_of_places (h : use ∈ places naming f) : (Tree.map f).Below (.map use) := by
  unfold places at h
  split at h
  · obtain ⟨value, hvalue, huse⟩ := List.mem_flatMap.mp h
    obtain ⟨field, -, hget⟩ := List.mem_filterMap.mp hvalue
    exact .head (Record.mem_values_of_get? hget) (Tree.below_of_mappings huse)
  · cases h

theorem below_of_uses (h : use ∈ uses naming f) : (Tree.map f).Below (.map use) := by
  obtain ⟨value, hvalue, huse⟩ := List.mem_flatMap.mp h
  refine .head ?_ (Tree.below_of_outermost huse)
  unfold componentTrees at hvalue
  split at hvalue
  · split at hvalue
    · obtain ⟨field, -, hget⟩ := List.mem_filterMap.mp hvalue
      exact Record.mem_values_of_get? hget
    · obtain ⟨pair, hpair, rfl⟩ := List.mem_map.mp hvalue
      exact List.mem_map.mpr ⟨pair, (List.mem_filter.mp hpair).1, rfl⟩
  · cases hvalue

/-- A failure that is possible after the scan: not for a missing entry or a bad sidecar, and for a
reference only if it has other fields beside a target that is a text. -/
def AfterScan (naming : NamingMode) (document : Tree) : LoadError → Prop
  | .missingReferences _ | .malformedSidecar _ => False
  | .malformedReference reason => ∃ use id, document.Below (.map use) ∧
      Dict.get? use naming.protocol.componentRef = some (.string id) ∧ 1 < use.length ∧
      reason = crowdedReason naming use
  | _ => True

theorem afterScan_of_local {document : Tree} (e : LoadError) (h : e.IsLocal) :
    AfterScan naming document e := by
  cases e <;> first | exact trivial | exact h.elim

variable {ctx : Context} {document : Tree} {scan : Scan}

section
variable (hplugins : KnownPlugins ctx.registry)
  (hscan : Scan.ofDocument ctx.naming.protocol ctx.supplied document = .ok scan)
  (hsidecar : ctx.sidecar = scan.defined)
include hscan hsidecar

/-- Following an id that is known finds what it stands for, and an entry stands in the document. -/
theorem afterScan_follow {load : Dict Tree → LoadM Component} {id : String}
    (hid : id ∈ Dict.keys scan.defined ∨ id ∈ Dict.keys ctx.supplied)
    (hload : ∀ g, document.Below (.map g) →
      KeepsIds (fun _ => True) (AfterScan ctx.naming document) (load g) fun _ => True) :
    KeepsIds (fun _ => True) (AfterScan ctx.naming document) (follow ctx load id) fun _ => True := by
  have hfound : Dict.get? ctx.supplied id = none → Dict.get? ctx.sidecar id ≠ none := by
    rw [hsidecar]
    rcases hid with hid | hid
    · exact fun _ => Dict.get?_ne_none_iff.mpr hid
    · exact fun hnone => absurd hnone (Dict.get?_ne_none_iff.mpr hid)
  have hentry (g : Dict Tree) (hg : Dict.get? ctx.sidecar id = some g) :
      document.Below (.map g) := Scan.below_of_defined hscan (hsidecar ▸ hg)
  exact keeps_follow (J := fun _ => True) (fun _ _ _ => trivial) (fun _ _ _ _ => trivial)
    (fun _ _ _ _ => ⟨trivial, trivial⟩) (fun hsupplied hnone => hfound hsupplied hnone)
    (fun _ _ => trivial) (fun g hg => hload g (hentry g hg)) (fun _ _ _ _ _ _ => trivial)

include hplugins

theorem afterScan_record (room : Nat) {f : Dict Tree} (hf : document.Below (.map f)) :
    KeepsIds (fun _ => True) (AfterScan ctx.naming document) (record ctx room f) fun _ => True := by
  induction room generalizing f with
  | zero => exact Ends.throw trivial
  | succ room ih =>
    have hanswers : Reader.Answers (fun _ => True) (AfterScan ctx.naming document)
        (fun use => document.Below (.map use)) (fun _ => True)
        ⟨ctx.release, ctx.naming, record ctx room, follow ctx (record ctx room)⟩ := by
      constructor
      · exact fun use huse _ => ih huse
      · intro id huse
        have htarget : Dict.get? [(ctx.naming.protocol.componentRef, Tree.string id)]
            ctx.naming.protocol.componentRef = some (.string id) := by simp [Dict.get?]
        obtain ⟨x, hx, hknown⟩ := Scan.known_of_reference hscan huse htarget
        obtain rfl := Tree.string.inj hx
        exact afterScan_follow hscan hsidecar hknown fun g hg => ih hg
      · intro use target huse htarget hlength
        obtain ⟨id, rfl, -⟩ := Scan.known_of_reference hscan huse htarget
        exact ⟨use, id, huse, htarget, hlength, rfl⟩
      · intro target huse hodd
        have htarget : Dict.get? [(ctx.naming.protocol.componentRef, target)]
            ctx.naming.protocol.componentRef = some target := by simp [Dict.get?]
        obtain ⟨id, rfl, -⟩ := Scan.known_of_reference hscan huse htarget
        exact absurd rfl (hodd id)
      · exact afterScan_of_local
    refine keeps_record afterScan_of_local (fun type plugin htype hplugin => ?_)
      (fun _ _ _ _ _ _ => trivial) fun _ _ _ _ _ _ => trivial
    exact (keeps_pluginRead hplugins htype hplugin hanswers
      (fun use huse => hf.trans (below_of_places huse))
      (fun _ use huse => hf.trans (below_of_uses huse))).mono fun _ _ => trivial

theorem afterScan_root {disaggregatedOnly : Bool} {f : Dict Tree}
    (hf : document.Below (.map f)) :
    KeepsIds (fun _ => True) (AfterScan ctx.naming document) (root ctx disaggregatedOnly f)
      fun _ => True := by
  refine keeps_root afterScan_of_local (fun _ => afterScan_record hplugins hscan hsidecar _ hf)
    fun _ sidecar hget => ?_
  obtain ⟨records, rfl, hdefined⟩ := Scan.defined_of_sidecar hscan hf hget
  refine (keeps_entries (I := fun _ => True) (Q := fun _ => True)
    fun id hid => ?_).mono fun _ _ => trivial
  exact afterScan_follow hscan hsidecar (.inl (hdefined id hid)) fun g hg =>
    afterScan_record hplugins hscan hsidecar _ hg

end
end Load

/-- The scan gives the verdict of a recursive walk of the document, and after a scan that ended well a
load fails neither for a missing entry, nor for a malformed sidecar, nor for a reference whose target
is no text. -/
theorem scan_complete {extensions : List Plugin} {registry : Registry}
    (hregistry : Registry.ofPlugins extensions = .ok registry)
    (hgeneric : ∀ plugin ∈ extensions, plugin.IsGeneric) :
    (∀ (naming : NamingMode) (supplied : Dict Component) (document : Tree),
      Scan.ofDocument naming.protocol supplied document =
        Finding.verdict supplied (Finding.visit naming.protocol document)) ∧
    ∀ (options : LoadOptions) (document : Tree) (supply : Supply) (scan : Scan) (e : LoadError),
      Scan.ofDocument options.naming.protocol options.supplied document.strip = .ok scan →
      load registry options document supply = .error e →
      (∀ ids, e ≠ .missingReferences ids) ∧ (∀ reason, e ≠ .malformedSidecar reason) ∧
      ∀ reason, e = .malformedReference reason → ∃ use id,
        document.strip.Below (.map use) ∧
        Dict.get? use options.naming.protocol.componentRef = some (.string id) ∧
        1 < use.length ∧ reason = crowdedReason options.naming use := by
  refine ⟨fun naming supplied document => Scan.ofDocument_eq naming.protocol supplied document, ?_⟩
  intro options document supply scan e hscan hload
  have hplugins := Load.knownPlugins_of_generic hregistry hgeneric
  have hends := Load.load_ends (Q := True)
    (F := Load.AfterScan options.naming document.strip) hload Load.afterScan_of_local
    (fun e he => by rw [hscan] at he; cases he)
    (fun fields release found hstrip hfound => by
      have hroot : document.strip.Below (.map fields) := by
        rw [hstrip]
        exact .refl
      exact Ends.mono (Ends.strengthen (Load.afterScan_root hplugins hfound rfl hroot)
        fun _ _ => trivial) fun _ _ _ => trivial)
  refine ⟨?_, ?_, ?_⟩
  · rintro ids rfl
    exact hends
  · rintro reason rfl
    exact hends
  · rintro reason rfl
    exact hends

/-! An agent that refers to its model and says more beside the reference. -/
namespace Sample

/-- A plugin for memories, which are no builtin kind. -/
def memories : Plugin := .generic "memories" "1" ["Memory"] ["label"]

def withMemories : Registry := ⟨[memories]⟩

def crowdedAgent : Tree :=
  .map [("component_type", .string "Agent"), ("id", .string "a"), ("name", .string "Agent"),
    ("llm_config", .map [("$component_ref", .string "m"), ("note", .string "fast")]),
    ("system_prompt", .string "Help."),
    ("$referenced_components", .map [("m", .map modelRecord)])]

end Sample

theorem scan_complete_crowded :
    ∃ e use id, load Sample.withMemories .default Sample.crowdedAgent ⟨0, 0⟩ = .error e ∧
      Sample.crowdedAgent.strip.Below (.map use) ∧
      Dict.get? use "$component_ref" = some (.string id) ∧
      e = .malformedReference (crowdedReason .canonical use) := by
  have hregistry : Registry.ofPlugins [Sample.memories] = .ok Sample.withMemories := rfl
  have hgeneric : ∀ plugin ∈ [Sample.memories], plugin.IsGeneric :=
    List.forall_mem_singleton.mpr ⟨_, _, _, _, rfl⟩
  obtain ⟨scan, hscan⟩ := exists_of_isOk
    (x := Scan.ofDocument NamingMode.canonical.protocol [] Sample.crowdedAgent.strip)
    (by decide +kernel)
  have hfails : load Sample.withMemories .default Sample.crowdedAgent ⟨0, 0⟩ =
      .error (.malformedReference
        "a $component_ref record holds no other fields, got $component_ref, note") :=
    error_of_map (f := fun _ => ()) (by decide +kernel)
  have hafter := (scan_complete hregistry hgeneric).2 .default Sample.crowdedAgent ⟨0, 0⟩ scan _
    hscan hfails
  obtain ⟨use, id, hbelow, hid, -, hreason⟩ := hafter.2.2 _ rfl
  exact ⟨_, use, id, hfails, hbelow, hid, congrArg LoadError.malformedReference hreason⟩

end AgentGraph
