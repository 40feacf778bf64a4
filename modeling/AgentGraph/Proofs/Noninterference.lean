import AgentGraph.Proofs.BuiltinGraph
import AgentGraph.Proofs.Noninterference.Record
/-!
# What a policy hides stays out of every document

Two graphs that differ only in fields that the policy calls sensitive are saved alike, whatever those
fields hold: the same document and sidecar, or the same error. Only a conflict of ids may stop one of
the two saves and not the other, since equality of components looks at all fields. The builtin policy
names the keys of two of the four providers, so the keys of the other two are written.
-/
namespace AgentGraph

/-- A plugin that writes the fields of a kind as they are, or refuses it by what stands beside its
fields. -/
def Plugin.Transparent (p : Plugin) : Prop :=
  ∀ target c d, Component.SameFrame c d →
    (p.write target c = .ok c.kind.fields ∧ p.write target d = .ok d.kind.fields) ∨
      ∃ e, p.write target c = .error e ∧ p.write target d = .error e

namespace Plugin

theorem transparent_generic (name version : String) (types declared : List String) :
    (generic name version types declared).Transparent := by
  intro target c d h
  cases hd : d.kind.isBuiltin with
  | false => exact .inl ⟨writeBag_of_extension (h.builtin.trans hd), writeBag_of_extension hd⟩
  | true =>
    refine .inr ⟨_, writeBag_of_builtin (h.builtin.trans hd), ?_⟩
    rw [h.type]
    exact writeBag_of_builtin hd

theorem transparent_builtin : builtin.Transparent := by
  intro target c d h
  cases hd : d.kind.isBuiltin with
  | true => exact .inl ⟨write_of_builtin (h.builtin.trans hd), write_of_builtin hd⟩
  | false =>
    refine .inr ⟨_, write_of_extension (h.builtin.trans hd), ?_⟩
    rw [h.type]
    exact write_of_extension hd

end Plugin

namespace Writer
variable {w : Writer} {S : Component → Component → Prop} {c d : Component}

theorem visibleFields_matched
    (howner : ∀ owner, w.registry.owner? c.componentType = some owner → owner.plugin.Transparent)
    (h : c.SameFrame d)
    (hfields : alikeEntries S (c.openFields w.policy.isSensitive)
      (d.openFields w.policy.isSensitive)) :
    Matched (alikeEntries S) (w.visibleFields c) (w.visibleFields d) := by
  have hshown := alikeEntries_filter hfields fun field =>
    w.policy.fieldAllowed c.componentType field w.target.release
  simp only [Component.openFields, List.filter_filter, ← h.type] at hshown
  simp only [visibleFields, ← h.type]
  cases ho : w.registry.owner? c.componentType with
  | none => exact .error _
  | some owner =>
    simp only
    split
    · rcases howner owner ho w.target c d h with ⟨hc, hd⟩ | ⟨e, hc, hd⟩
      · rw [hc, hd]
        exact .ok hshown
      · rw [hc, hd]
        exact .error e
    · exact .ok trivial

theorem relates_of_respects (hS : Component.Respects w.policy.isSensitive S)
    (howner : ∀ c d, S c d → ∀ owner, w.registry.owner? c.componentType = some owner →
      owner.plugin.Transparent) : w.Relates S where
  frame := hS.frame
  fields c d h := visibleFields_matched (howner c d h) (hS.frame c d h) (hS.fields c d h)

end Writer

theorem Registry.transparent_of_generic {r : Registry}
    (h : ∀ plugin ∈ r.extensions, plugin.IsGeneric) {type : String} {owner : Owner}
    (ho : r.owner? type = some owner) : owner.plugin.Transparent := by
  rcases owner?_cases ho with hextension | ⟨-, rfl⟩
  · obtain ⟨name, version, types, declared, hplugin⟩ := h _ hextension
    rw [hplugin]
    exact Plugin.transparent_generic name version types declared
  · exact Plugin.transparent_builtin

/-- Fields that a policy marks as sensitive decide nothing about a save but whether ids conflict. -/
theorem save_noninterference {registry : Registry} {policy : Policy} {root root' : Component}
    (options : SaveOptions)
    (hplugins : ∀ plugin ∈ registry.extensions, plugin.IsGeneric)
    (h : Component.EqualExcept policy.isSensitive root root') :
    (∃ id, save registry policy options root = .error (.conflictingId id)) ∨
    (∃ id, save registry policy options root' = .error (.conflictingId id)) ∨
    save registry policy options root = save registry policy options root' := by
  have hrelates : (options.writer registry policy).Relates
      (Component.EqualExcept policy.isSensitive) :=
    Writer.relates_of_respects Component.respects_equalExcept
      fun c _ _ owner ho => Registry.transparent_of_generic hplugins ho
  have hagree := save_agree hrelates h
  by_cases hleft : ∃ id, save registry policy options root = .error (.conflictingId id)
  · exact .inl hleft
  · by_cases hright : ∃ id, save registry policy options root' = .error (.conflictingId id)
    · exact .inr (.inl hright)
    · exact .inr (.inr (hagree.eq_of_ne (not_exists.mp hleft) (not_exists.mp hright)))

/-! A memory whose backend, itself a component, is kept to itself. -/
namespace Sample

/-- A registry with a plugin for memories. -/
def withMemory : Registry := ⟨[.generic "memory" "1" ["Memory"] ["label", "backend"]]⟩

/-- The policy that hides the backends of memories. -/
def hideBackend : Policy := Policy.empty.hide "Memory" "backend"

def stocked : Component :=
  .mk 11 "memory" "Memory" none []
    (.extension "Memory" [("label", .text "notes"), ("backend", .component model)])

def bare : Component :=
  .mk 11 "memory" "Memory" none [] (.extension "Memory" [("label", .text "notes")])

end Sample

theorem save_noninterference_memory :
    ∃ saved, save Sample.withMemory Sample.hideBackend .default Sample.stocked = .ok saved ∧
      save Sample.withMemory Sample.hideBackend .default Sample.bare = .ok saved := by
  have hplugins : ∀ plugin ∈ Sample.withMemory.extensions, plugin.IsGeneric := by
    simp only [Sample.withMemory, List.forall_mem_singleton]
    exact ⟨_, _, _, _, rfl⟩
  have hequal : Sample.stocked.EqualExcept Sample.hideBackend.isSensitive Sample.bare :=
    Component.SameFrame.equalExcept ⟨rfl, rfl, rfl, rfl, rfl, rfl⟩ rfl
  have hstocked : (save Sample.withMemory Sample.hideBackend .default Sample.stocked).isOk =
      true := by decide +kernel
  have hbare : (save Sample.withMemory Sample.hideBackend .default Sample.bare).isOk = true := by
    decide +kernel
  obtain ⟨saved, hsave⟩ := exists_of_isOk hstocked
  obtain ⟨saved', hsave'⟩ := exists_of_isOk hbare
  rcases save_noninterference .default hplugins hequal with ⟨id, h⟩ | ⟨id, h⟩ | h
  · cases hsave.symm.trans h
  · cases hsave'.symm.trans h
  · exact ⟨saved', h.trans hsave', hsave'⟩

/-- In a graph of builtin kinds the relation may be narrowed to what is reached. -/
theorem Writer.relates_builtin {extensions : List Plugin} {registry : Registry}
    {options : SaveOptions} {policy : Policy} {root : Component}
    (hregistry : Registry.ofPlugins extensions = .ok registry)
    (hbuiltin : ∀ c, Component.Reaches Component.children root c → c.kind.isBuiltin = true) :
    (options.writer registry policy).Relates fun c d =>
      c.EqualExcept policy.isSensitive d ∧ Component.Reaches Component.children root c := by
  refine relates_of_respects ⟨fun c d h => Component.respects_equalExcept.frame c d h.1, ?_⟩ ?_
  · rintro c d ⟨h, hc⟩
    refine alikeEntries_imp (Component.respects_equalExcept.fields c d h) fun a ha b hab => ⟨hab, ?_⟩
    exact hc.kid (heldComponents_mono (fun _ => List.mem_of_mem_filter) ha)
  · rintro c d ⟨-, hc⟩ owner ho
    have hown := Registry.owner?_builtin hregistry (Kind.type_mem (hbuiltin c hc))
    obtain rfl := Option.some.inj (hown.symm.trans ho)
    exact Plugin.transparent_builtin

/-- The keys of hosted and compatible models and the sensitive headers of tools are in no document. -/
theorem save_hides_credentials {extensions : List Plugin} {registry : Registry}
    {options : SaveOptions} {root root' : Component} {saved saved' : Saved}
    (hregistry : Registry.ofPlugins extensions = .ok registry)
    (hbuiltin : ∀ c, Component.Reaches Component.children root c → c.kind.isBuiltin = true)
    (h : Component.EqualExcept Policy.builtin.isSensitive root root')
    (hsave : save registry .builtin options root = .ok saved)
    (hsave' : save registry .builtin options root' = .ok saved') : saved = saved' := by
  have hrelates : (options.writer registry .builtin).Relates fun c d =>
      c.EqualExcept Policy.builtin.isSensitive d ∧ Component.Reaches Component.children root c :=
    Writer.relates_builtin hregistry hbuiltin
  have hagree := save_agree hrelates ⟨h, .refl root⟩
  have heq := hagree.eq_of_ne (by simp [hsave]) (by simp [hsave'])
  rw [hsave, hsave'] at heq
  exact Except.ok.inj heq

/-! Models that differ in their keys only. -/
namespace Sample

/-- A model of a provider with a key or without one. -/
def served (provider : Provider) (apiKey : Option String) : Component :=
  .mk 12 "model" "Model" none [] (.modelConfig
    { provider, modelId := "m", url := some "http://host", apiKey, apiType := none,
      parameters := none })

theorem builtin_served {provider : Provider} {apiKey : Option String} {c : Component}
    (h : Component.Reaches Component.children (served provider apiKey) c) :
    c.kind.isBuiltin = true := by
  have hnone : (served provider apiKey).children = [] := Kind.held_modelConfig _
  have hc : c ∈ [served provider apiKey] := h.mem List.mem_cons_self (by simp [hnone])
  rw [List.mem_singleton.mp hc]
  rfl

end Sample

theorem save_hides_credentials_openAi :
    ∃ saved, save .builtin .builtin .default (Sample.served .openAi (some "secret")) = .ok saved ∧
      save .builtin .builtin .default (Sample.served .openAi none) = .ok saved := by
  have hkey : (save .builtin .builtin .default (Sample.served .openAi (some "secret"))).isOk =
      true := by decide +kernel
  have hnone : (save .builtin .builtin .default (Sample.served .openAi none)).isOk = true := by
    decide +kernel
  have hequal : (Sample.served .openAi (some "secret")).EqualExcept Policy.builtin.isSensitive
      (Sample.served .openAi none) :=
    Component.SameFrame.equalExcept ⟨rfl, rfl, rfl, rfl, rfl, rfl⟩ rfl
  obtain ⟨saved, hsave⟩ := exists_of_isOk hkey
  obtain ⟨saved', hsave'⟩ := exists_of_isOk hnone
  have hregistry : Registry.ofPlugins [] = .ok .builtin := rfl
  obtain rfl := save_hides_credentials hregistry (fun _ => Sample.builtin_served) hequal hsave hsave'
  exact ⟨saved, hsave, hsave'⟩

/-- Whether a field holds a credential: the key of any model, or the sensitive headers of a tool. -/
def isCredential (type field : String) : Bool :=
  ((Provider.all.map (·.componentType)).contains type && field == "apiKey") ||
    (type == "RemoteTool" && field == "sensitiveHeaders")

/-- The key of a model that is served by oneself is written. -/
theorem save_writes_vllm_key :
    ∃ root root' saved saved', Component.EqualExcept isCredential root root' ∧
      (∀ c, Component.Reaches Component.children root c → c.kind.isBuiltin = true) ∧
      save .builtin .builtin .default root = .ok saved ∧
      save .builtin .builtin .default root' = .ok saved' ∧ saved ≠ saved' := by
  have hkey : (save .builtin .builtin .default (Sample.served .vllm (some "secret"))).toOption.any
      (fun saved => (saved.document.field? "api_key").isSome) = true := by decide +kernel
  have hnone : (save .builtin .builtin .default (Sample.served .vllm none)).toOption.any
      (fun saved => (saved.document.field? "api_key").isNone) = true := by decide +kernel
  have hequal : (Sample.served .vllm (some "secret")).EqualExcept isCredential
      (Sample.served .vllm none) :=
    Component.SameFrame.equalExcept ⟨rfl, rfl, rfl, rfl, rfl, rfl⟩ rfl
  obtain ⟨saved, hsave, hwritten⟩ := exists_of_any hkey
  obtain ⟨saved', hsave', habsent⟩ := exists_of_any hnone
  refine ⟨_, _, saved, saved', hequal, fun _ => Sample.builtin_served, hsave, hsave', ?_⟩
  rintro rfl
  rw [Option.isNone_iff_eq_none] at habsent
  simp [habsent] at hwritten

/-- The builtin policy lets the keys of two providers through, at every release. -/
theorem Policy.shows_apiKey_iff (release : Release) (provider : Provider) :
    Policy.builtin.shows release provider.componentType "apiKey" = true ↔
      provider = .vllm ∨ provider = .ollama := by
  cases release <;> cases provider <;> decide

end AgentGraph
