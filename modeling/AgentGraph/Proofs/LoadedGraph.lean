import AgentGraph.Proofs.BuiltinGraph
import AgentGraph.Proofs.Listing
import AgentGraph.Proofs.Load.Vetted
import AgentGraph.Proofs.PreFlight
/-!
# The graphs that loads give back

Whatever document is loaded, the components that come back are well formed, and so are all those that
they use, however far down, if the supplied components are. What was built, and not supplied, has no
reserved key: a document is freed of them once, and nothing that is done with it later brings one back.
-/
namespace AgentGraph

/-- A load with the builtin kinds gives back only well-formed graphs, if those supplied to it are well
formed. -/
theorem load_wellFormed {options : LoadOptions} {document : Tree} {supply after : Supply}
    {loaded : Loaded}
    (hsupplied : ∀ c ∈ Dict.values options.supplied, ∀ d,
      Component.Reaches Component.children c d → d.WellFormed)
    (hload : load .builtin options document supply = .ok (loaded, after)) :
    ∀ c ∈ loaded.components, ∀ d, Component.Reaches Component.children c d → d.WellFormed := by
  have hplugins : ∀ p ∈ Registry.builtin.extensions, p.IsGeneric := List.forall_mem_nil _
  refine Load.load_obtains ?_ hplugins hsupplied hload
  intro handle id name description metadata kind _ hkind d hd
  rcases Component.reaches_iff.mp hd with rfl | ⟨kid, hkid, hd⟩
  · exact hkind.wellFormed
  · exact hkind.held kid hkid d hd

/-! An agent whose model is supplied and whose tool stands in the document. -/
namespace Sample

def suppliedModel : LoadOptions := LoadOptions.default.supplyOne model

def modelUser : Tree :=
  .map [("component_type", .string "Agent"), ("id", .string "a"), ("name", .string "Agent"),
    ("llm_config", .map [("$component_ref", .string "model")]), ("system_prompt", .string "Help."),
    ("tools", .list [.map [("component_type", .string "ServerTool"), ("id", .string "t"),
      ("name", .string "Tool"),
      ("inputs", .list [.map [("title", .string "query"), ("type", .string "string")]])]])]

end Sample

theorem load_wellFormed_modelUser : ∃ root after,
    load .builtin Sample.suppliedModel Sample.modelUser ⟨0, 0⟩ = .ok (.component root, after) ∧
      ∀ d, Component.Reaches Component.children root d → d.WellFormed := by
  have hrun : (load .builtin Sample.suppliedModel Sample.modelUser ⟨0, 0⟩).toOption.any
      (fun p => p.1 matches .component _) = true := by decide +kernel
  have hsupplied : ∀ c ∈ Dict.values Sample.suppliedModel.supplied, ∀ d,
      Component.Reaches Component.children c d → d.WellFormed := by
    refine List.forall_mem_singleton.mpr fun d hd => ?_
    have honly : d ∈ [Sample.model] := hd.mem (by simp) (by simp [Sample.model, Component.children,
      Component.kind])
    obtain rfl := List.mem_singleton.mp honly
    exact .inl rfl
  obtain ⟨⟨loaded, after⟩, hload, hroot⟩ := exists_of_any hrun
  cases loaded with
  | component root =>
    exact ⟨root, after, hload, load_wellFormed hsupplied hload root (List.mem_singleton.mpr rfl)⟩
  | referenced components => cases hroot

/-- A component that a load gives back, or one that it uses, is clean, unless it was supplied or is used
by a supplied one. Stripping, to which the document is subjected first, deletes just the places to which
a reserved key leads, keeps the others in order, counts the entries it deletes, and finds nothing to
delete in what it leaves. -/
theorem load_clean {registry : Registry} {options : LoadOptions} {document : Tree}
    {supply after : Supply} {loaded : Loaded}
    (hplugins : ∀ p ∈ registry.extensions, p.IsGeneric)
    (hload : load registry options document supply = .ok (loaded, after)) :
    (∀ c ∈ loaded.components, ∀ d, Component.Reaches Component.children c d →
      d.Clean ∨ ∃ s ∈ Dict.values options.supplied,
        Component.Reaches Component.children s d) ∧
    ∀ t : Tree, t.strip.listing = t.listing.filter (!Tree.isCut ·) ∧
      t.reservedCount = t.listing.countP (Tree.isDeleted ·.1) ∧
      t.strip.reservedCount = 0 ∧ t.strip.strip = t.strip := by
  refine ⟨?_, fun t => ⟨t.listing_strip, t.reservedCount_eq,
    Tree.unreserved_iff.mp (Tree.unreserved_strip t), t.strip_strip⟩⟩
  refine Load.load_obtains ?_ hplugins (fun c hc d hd => .inr ⟨c, hc, hd⟩) hload
  intro handle id name description metadata kind hmetadata hkind d hd
  rcases Component.reaches_iff.mp hd with rfl | ⟨kid, hkid, hd⟩
  · exact .inl ⟨hmetadata, hkind.clean⟩
  · exact hkind.held kid hkid d hd

/-! A memory with reserved keys among its fields, in its data and in its metadata. -/
namespace Sample

def taintedMemory : Tree :=
  .map [("component_type", .string "Memory"), ("id", .string "m"), ("name", .string "Memory"),
    ("metadata", .map [("prototype", .null), ("kept", .bool true)]),
    ("constructor", .string "f"),
    ("label", .list [.map [("__proto__", .map [("constructor", .null)]), ("text", .string "t")]])]

end Sample

theorem load_clean_taintedMemory : ∃ root after,
    load Sample.withMemories .default Sample.taintedMemory ⟨0, 0⟩ = .ok (.component root, after) ∧
      root.Clean ∧ Sample.taintedMemory.reservedCount = 3 := by
  have hplugins : ∀ p ∈ Sample.withMemories.extensions, p.IsGeneric :=
    List.forall_mem_singleton.mpr ⟨_, _, _, _, rfl⟩
  have hrun : (load Sample.withMemories .default Sample.taintedMemory ⟨0, 0⟩).toOption.any
      (fun p => p.1 matches .component _) = true := by decide +kernel
  obtain ⟨⟨loaded, after⟩, hload, hroot⟩ := exists_of_any hrun
  cases loaded with
  | component root =>
    refine ⟨root, after, hload, ?_, by decide⟩
    rcases (load_clean hplugins hload).1 root (List.mem_singleton.mpr rfl) root (.refl root) with
      hclean | ⟨s, hs, -⟩
    · exact hclean
    · cases hs
  | referenced components => cases hroot

end AgentGraph
