import AgentGraph.Proofs.BuiltinGraph
import AgentGraph.Proofs.LoadedGraph
import AgentGraph.Proofs.Reorder.Loads
import AgentGraph.Proofs.Reorder.Scan
/-!
# Documents with their keys in another order

The loader asks for what a mapping holds under a key and never for the order of its keys. Only where records
declare no ids could the order show, in the ids that are made up for them.
-/
namespace AgentGraph
open List (Forall₂)

namespace Load
variable {t u : Tree} {d e : Dict Tree}

theorem carried_checkLimits {options : LoadOptions} (h : t.Reordered u) :
    Carried (fun _ _ => True) (checkLimits options t) (checkLimits options u) := by
  unfold checkLimits
  rw [← Json.encodedSize_eq h]
  simp only
  split
  · exact .error
  · split
    · exact .error
    · rename_i hdepth
      simp only [h.exceeds_eq_false (by simpa using hdepth)]
      exact .ok trivial

theorem carried_releaseOf {protocol : Protocol} (h : Dict.Reordered Tree.Reordered d e)
    (hd : (Tree.map d).Proper) :
    Carried (· = ·) (releaseOf protocol d) (releaseOf protocol e) := by
  have hnew := h.get? (Tree.proper_map.mp hd).1 protocol.version
  have hold := h.get? (Tree.proper_map.mp hd).1 protocol.legacyVersion
  unfold releaseOf
  simp only
  generalize Dict.get? d protocol.version = new at hnew
  generalize Dict.get? e protocol.version = new' at hnew
  generalize Dict.get? d protocol.legacyVersion = old at hold
  generalize Dict.get? e protocol.legacyVersion = old' at hold
  -- the version that counts is there in both, or in neither
  rcases hnew with @⟨t, u, htu⟩ | _
  on_goal 2 => rcases hold with @⟨t, u, htu⟩ | _
  on_goal 3 => exact .ok rfl
  all_goals
    cases t with
    | string text =>
      obtain rfl := (Tree.reordered_scalar rfl).mp htu
      exact fun release hrelease => ⟨release, hrelease, rfl⟩
    | _ => exact .error

/-- Objects that two loads were given, and objects that they make one after the other. -/
def Paired (next next' : Nat) (handle handle' : Nat) : Prop :=
  handle = handle' ∧ handle < next ∧ handle < next' ∨ ∃ k, handle = next + k ∧ handle' = next' + k

theorem matching_paired (next next' : Nat) : Component.Matching (Paired next next') where
  right a b b' hb hb' := by
    rcases hb with hb | ⟨k, hb⟩ <;> rcases hb' with hb' | ⟨k', hb'⟩ <;> omega
  left a a' b ha ha' := by
    rcases ha with ha | ⟨k, ha⟩ <;> rcases ha' with ha' | ⟨k', ha'⟩ <;> omega

/-- Only a root with a type is loaded as a component. -/
theorem typed_of_component {ctx : Context} {disaggregatedOnly : Bool} {s s' : LoadState}
    {c : Component} (h : root ctx disaggregatedOnly d s = .ok (.component c, s')) :
    Dict.has d ctx.naming.protocol.componentType = true := by
  by_contra htype
  unfold root at h
  simp only [if_neg htype] at h
  cases hget : Dict.get? d ctx.naming.protocol.referencedComponents with
  | none =>
    rw [hget] at h
    cases h
  | some sidecar =>
    rw [hget] at h
    cases disaggregatedOnly with
    | false => cases h
    | true =>
      obtain ⟨_, -, h⟩ := bind_ok h
      cases h

theorem shadows_root {I : LoadState → LoadState → Prop} {R : Component → Component → Prop}
    {ctx : Context} {sidecar' : Dict (Dict Tree)} {disaggregatedOnly : Bool}
    (htype : Dict.has d ctx.naming.protocol.componentType = true)
    (htype' : Dict.has e ctx.naming.protocol.componentType = true)
    (hrecord : Shadows I R (record ctx ctx.maxDepth d)
      (record { ctx with sidecar := sidecar' } ctx.maxDepth e)) :
    Shadows I (fun loaded loaded' => ∃ c c', loaded = .component c ∧ loaded' = .component c' ∧ R c c')
      (root ctx disaggregatedOnly d)
      (root { ctx with sidecar := sidecar' } disaggregatedOnly e) := by
  unfold root
  simp only [if_pos htype, if_pos htype']
  exact hrecord.bind fun c c' hcc => .pure ⟨c, c', rfl, rfl, hcc⟩

end Load

/-- Documents of which one is the other with the keys of its mappings in another order load alike, if each
of their records declares an id: the roots are equal, but for the order of keys, and share objects alike. -/
theorem load_reordered {options : LoadOptions} {document document' : Tree}
    {supply supply' after : Supply} {root : Component} (hproper : document.Proper)
    (h : document.Reordered document')
    (hdeclared : ∀ f, Load.IsRecord options.naming document.strip f →
      Dict.has f options.naming.protocol.componentType = true → Load.declaredId? f ≠ none)
    (hsupplied : ∀ c ∈ Dict.values options.supplied, c.Keyed ∧
      ∀ d, Component.Reaches Component.children c d →
        d.handle < supply.nextHandle ∧ d.handle < supply'.nextHandle)
    (hload : load .builtin options document supply = .ok (.component root, after)) :
    ∃ root' after', load .builtin options document' supply' = .ok (.component root', after') ∧
      root.same root' = true ∧ root.SharesAlike root' := by
  obtain ⟨fields, release, scan, state, hlimits, hstrip, hrelease, hscan, hrun, -⟩ :=
    Load.load_ok_iff.mp hload
  have hreordered := h.strip
  have hstripped := hproper.strip
  rw [hstrip] at hreordered hstripped hdeclared
  obtain ⟨fields', hstrip', hfields⟩ := Tree.reordered_map.mp hreordered
  rw [hstrip'] at hreordered
  obtain ⟨_, hlimits', -⟩ := Load.carried_checkLimits h _ hlimits
  obtain ⟨_, hrelease', rfl⟩ := Load.carried_releaseOf hfields hstripped _ hrelease
  obtain ⟨scan', hscan', hentries⟩ := Scan.carried_ofDocument hreordered hstripped _ hscan
  have htype := Load.typed_of_component hrun
  have htype' : Dict.has fields' options.naming.protocol.componentType = true :=
    (hfields.has_eq _).symm.trans htype
  let ρ := Load.Paired supply.nextHandle supply'.nextHandle
  have hgiven : ∀ id c, Dict.get? options.supplied id = some c → c.Twins ρ c := by
    intro id c hc
    obtain ⟨hkeyed, hold⟩ := hsupplied c (List.mem_map.mpr ⟨_, Dict.mem_of_get? hc, rfl⟩)
    exact hkeyed.twins_self fun d hd => .inl ⟨rfl, hold d hd⟩
  have hrecord := Load.shadows_record hgiven hentries rfl (Load.definedIn_of_ofDocument hscan)
    hdeclared options.maxDepth (fun _ => ⟨fields, .refl, .inl ⟨htype, rfl⟩⟩) hstripped hfields
  have hbegun : LoadState.Twins ρ ⟨[], supply⟩ ⟨[], supply'⟩ :=
    ⟨fun _ => .none, fun k => .inr ⟨k, rfl, rfl⟩⟩
  obtain ⟨⟨_, state'⟩, hrun', ⟨c, c', hc, rfl, htwins⟩, -⟩ :=
    Load.shadows_root htype htype' hrecord _ _ hbegun _ hrun
  cases hc
  have hload' : load .builtin options document' supply' = .ok (.component c', state'.supply) :=
    Load.load_ok_iff.mpr
      ⟨fields', release, scan', state', hlimits', hstrip', hrelease', hscan', hrun', rfl⟩
  exact ⟨c', state'.supply, hload', htwins.same, htwins.sharesAlike (Load.matching_paired _ _)⟩

/-! An agent with a supplied model and a tool that is there twice, and its document read backwards. -/
namespace Sample

def agentReversed : Dict Tree :=
  [("component_type", .string "Agent"), ("id", .string "a"), ("name", .string "Agent"),
    ("system_prompt", .string "Help."), ("llm_config", .map [("$component_ref", .string "model")]),
    ("tools", .list [.map toolRecord.reverse, .map [("$component_ref", .string "tool")]]),
    ("$referenced_components",
      .map [("tool", .map toolRecord.reverse), ("model", .map modelRecord)])].reverse

theorem reordered_agent : (Tree.map agentRecord).Reordered (.map agentReversed) := by
  have htool : (Tree.map toolRecord).Reordered (.map toolRecord.reverse) :=
    .of_perm (List.reverse_perm _).symm
  have htools := Tree.reordered_list.mpr
    ⟨_, rfl, .cons htool (.cons (.refl (.map [("$component_ref", .string "tool")])) .nil)⟩
  have hentries : Dict.Reordered Tree.Reordered
      [("model", .map modelRecord), ("tool", .map toolRecord)]
      [("tool", .map toolRecord.reverse), ("model", .map modelRecord)] :=
    ⟨[("model", .map modelRecord), ("tool", .map toolRecord.reverse)],
      .cons ⟨rfl, .refl _⟩ (.cons ⟨rfl, htool⟩ .nil), .swap _ _ _⟩
  refine Tree.reordered_map.mpr ⟨_, rfl, _, ?_, (List.reverse_perm _).symm⟩
  refine .cons ⟨rfl, .refl _⟩ (.cons ⟨rfl, .refl _⟩ (.cons ⟨rfl, .refl _⟩ (.cons ⟨rfl, .refl _⟩ ?_)))
  refine .cons ⟨rfl, .refl _⟩ (.cons ⟨rfl, htools⟩ (.cons ⟨rfl, ?_⟩ .nil))
  exact Tree.reordered_map.mpr ⟨_, rfl, hentries⟩

theorem proper_agent : (Tree.map agentRecord).Proper := by
  have hmodel : (Tree.map modelRecord).Proper := ⟨by decide, trivial, trivial, trivial, trivial, trivial⟩
  have htool : (Tree.map toolRecord).Proper := ⟨by decide, trivial, trivial, trivial, trivial⟩
  have href (id : String) : (Tree.map [("$component_ref", .string id)]).Proper :=
    ⟨List.nodup_singleton _, trivial, trivial⟩
  have hentries : (Tree.map [("model", .map modelRecord), ("tool", .map toolRecord)]).Proper :=
    ⟨by decide, hmodel, htool, trivial⟩
  exact ⟨by decide, trivial, trivial, trivial, trivial, href _, ⟨htool, href _, trivial⟩, hentries,
    trivial⟩

/-- Each record of the document declares its id. -/
theorem declared_agent {f : Dict Tree} (h : Load.IsRecord .canonical (.map agentRecord) f) :
    Load.declaredId? f ≠ none := by
  have hrecord : f ∈ agentRecord :: toolRecord :: Dict.values agentEntries := by
    obtain ⟨top, hnested, htop⟩ := h
    have hstart : top ∈ agentRecord :: toolRecord :: Dict.values agentEntries := by
      rcases htop with ⟨-, hroot⟩ | ⟨x, hx⟩
      · rw [← Tree.map.inj hroot]
        exact List.mem_cons_self
      · rw [definedIn_agentRecord] at hx
        exact List.mem_cons_of_mem _ (List.mem_cons_of_mem _
          (List.mem_map.mpr ⟨_, Dict.mem_of_get? hx, rfl⟩))
    induction hnested with
    | refl => exact hstart
    | @tail g k _ hgk ih =>
      -- only the agent has a record nested in it
      obtain ⟨hplace, -, href⟩ := hgk
      simp only [agentEntries, Dict.values, List.map_cons, List.map_nil, List.mem_cons,
        List.not_mem_nil, or_false] at ih
      rcases ih with rfl | rfl | rfl | rfl
      · have hplaces : Load.places .canonical agentRecord =
            [[("$component_ref", .string "model")], toolRecord,
              [("$component_ref", .string "tool")]] := rfl
        simp only [hplaces, List.mem_cons, List.not_mem_nil, or_false] at hplace
        rcases hplace with rfl | rfl | rfl
        · cases href
        · exact List.mem_cons_of_mem _ List.mem_cons_self
        · cases href
      all_goals cases hplace
  have hall : ∀ f ∈ agentRecord :: toolRecord :: Dict.values agentEntries,
      Load.declaredId? f ≠ none := by decide
  exact hall f hrecord

theorem keyed_model : model.Keyed := ⟨⟨List.nodup_nil, trivial⟩, nofun⟩

end Sample

theorem load_reordered_agent : ∃ root after root' after',
    load .builtin Sample.suppliedModel (.map Sample.agentRecord) ⟨2, 0⟩ =
        .ok (.component root, after) ∧
      load .builtin Sample.suppliedModel (.map Sample.agentReversed) ⟨9, 0⟩ =
        .ok (.component root', after') ∧
      root.children.map (·.handle) = [1, 2, 2] ∧ root.same root' = true ∧ root.SharesAlike root' := by
  have hrun : (load .builtin Sample.suppliedModel (.map Sample.agentRecord)
      ⟨2, 0⟩).toOption.any (fun p => (p.1.component?.toOption.any fun c =>
        c.children.map (·.handle) == [1, 2, 2])) = true := by decide +kernel
  obtain ⟨⟨loaded, after⟩, hload, hheld⟩ := exists_of_any hrun
  obtain ⟨root, hroot, hheld⟩ := exists_of_any hheld
  cases loaded with
  | referenced components => cases hroot
  | component found =>
    obtain rfl := Except.ok.inj hroot
    have hstrip : (Tree.map Sample.agentRecord).strip = .map Sample.agentRecord := rfl
    have hgiven : ∀ c ∈ Dict.values Sample.suppliedModel.supplied, c.Keyed ∧
        ∀ d, Component.Reaches Component.children c d →
          d.handle < (⟨2, 0⟩ : Supply).nextHandle ∧ d.handle < (⟨9, 0⟩ : Supply).nextHandle := by
      refine List.forall_mem_singleton.mpr ⟨Sample.keyed_model, fun d hd => ?_⟩
      rcases Component.reaches_iff.mp hd with rfl | ⟨kid, hkid, -⟩
      · decide
      · cases hkid
    obtain ⟨root', after', hload', hsame, hshares⟩ := load_reordered Sample.proper_agent
      Sample.reordered_agent (fun f hf _ => Sample.declared_agent (hstrip ▸ hf)) hgiven hload
    exact ⟨found, after, root', after', hload, hload', by simpa using hheld, hsame, hshares⟩

end AgentGraph
