import Mathlib.Data.List.Nodup
import Mathlib.Data.List.Perm.Basic
import AgentGraph.Proofs.Run
import AgentGraph.Registry
/-!
# The owners of types

A type is owned by one of the other plugins or else by the builtin one. A registry is put together
exactly if no type is claimed twice, be it within one plugin or by two; then the owner of a type is the
plugin at the one place whose list has it. So the types of the builtin catalog belong to the builtin
plugin, whatever other plugins there are.
-/
namespace AgentGraph

/-- A plugin that keeps its kinds as bags of fields. -/
def Plugin.IsGeneric (p : Plugin) : Prop :=
  ∃ name version types declared, p = .generic name version types declared

namespace Registry
variable {r : Registry} {extensions before after : List Plugin} {type : String}
  {p first second : Plugin} {owner : Owner} {cs : List (String × Plugin)}

theorem owner?_cases (h : r.owner? type = some owner) :
    owner.plugin ∈ r.extensions ∨ type ∈ Builtin.types ∧ owner = ⟨Plugin.builtin, true⟩ := by
  unfold owner? at h
  split at h
  · rename_i plugin hfind
    obtain rfl := Option.some.inj h
    exact .inl (List.mem_of_find?_eq_some hfind)
  · split at h
    · rename_i htype
      obtain rfl := Option.some.inj h
      exact .inr ⟨List.contains_iff_mem.mp htype, rfl⟩
    · cases h

/-- Every claim of a type by a plugin, in order. -/
def claimants (plugins : List Plugin) : List (String × Plugin) :=
  plugins.flatMap fun p => p.types.map (·, p)

/-- What is noted of a claim: the type and the name of the plugin. -/
def noted (claim : String × Plugin) : String × String := (claim.1, claim.2.name)

theorem claims_eq (plugins : List Plugin) : claims plugins = (claimants plugins).map noted := by
  simp [claims, claimants, noted, List.map_flatMap, Function.comp_def]

theorem map_fst_claimants (plugins : List Plugin) :
    (claimants plugins).map (·.1) = plugins.flatMap (·.types) := by
  simp [claimants, List.map_flatMap, Function.comp_def]

theorem lookup_noted_eq_none :
    (cs.map noted).lookup type = none ↔ type ∉ cs.map (·.1) := by
  rw [List.lookup_eq_none_iff, List.forall_mem_map, List.mem_map, not_exists]
  refine forall_congr' fun claim => ?_
  rw [not_and, noted, bne_iff_ne, ne_comm]

theorem exists_claim_of_lookup {name : String} (h : (cs.map noted).lookup type = some name) :
    ∃ p, (type, p) ∈ cs ∧ p.name = name := by
  obtain ⟨before, after, hsplit, -⟩ := List.lookup_eq_some_iff.mp h
  have hmem : (type, name) ∈ cs.map noted := by simp [hsplit]
  obtain ⟨⟨type, p⟩, hp, heq⟩ := List.mem_map.mp hmem
  cases heq
  exact ⟨p, hp, rfl⟩

/-- Up to a claim no type is claimed twice, and that one is of a type that was claimed before: first by
one plugin, and here by a second. -/
def FirstConflict (cs : List (String × Plugin)) (type : String) (first second : Plugin) : Prop :=
  ∃ before after, cs = before ++ (type, second) :: after ∧ (before.map (·.1)).Nodup ∧
    (type, first) ∈ before

theorem FirstConflict.not_nodup (h : FirstConflict cs type first second) :
    ¬(cs.map (·.1)).Nodup := by
  obtain ⟨before, after, rfl, -, hfirst⟩ := h
  intro hnodup
  rw [List.map_append, List.map_cons, List.nodup_append] at hnodup
  exact hnodup.2.2 type (List.mem_map_of_mem (f := (·.1)) hfirst) type List.mem_cons_self rfl

/-- The check ends well if no type is claimed twice, and otherwise tells the first conflict. -/
theorem checkClaims_spec (before rest : List (String × Plugin))
    (hbefore : (before.map (·.1)).Nodup) :
    match checkClaims (before.map noted) (rest.map noted) with
    | .ok _ => ((before.reverse ++ rest).map (·.1)).Nodup
    | .error e => ∃ type first second, FirstConflict (before.reverse ++ rest) type first second ∧
        e = .duplicateType type first.name second.name := by
  -- A claim that passes moves from the rest to those before, which stand in reverse order.
  induction rest generalizing before with
  | nil => simpa [checkClaims] using hbefore
  | cons claim rest ih =>
    obtain ⟨type, plugin⟩ := claim
    rw [List.map_cons, noted, checkClaims]
    cases hlookup : (before.map noted).lookup type with
    | some name =>
      obtain ⟨first, hfirst, rfl⟩ := exists_claim_of_lookup hlookup
      refine ⟨type, first, plugin, ⟨before.reverse, rest, rfl, ?_, ?_⟩, rfl⟩
      · rwa [List.map_reverse, List.nodup_reverse]
      · exact List.mem_reverse.mpr hfirst
    | none =>
      have hnew : (((type, plugin) :: before).map (·.1)).Nodup :=
        List.nodup_cons.mpr ⟨lookup_noted_eq_none.mp hlookup, hbefore⟩
      simpa [noted] using ih _ hnew

theorem ofPlugins_spec (extensions : List Plugin) :
    match ofPlugins extensions with
    | .ok r => r = ⟨extensions⟩ ∧ (r.plugins.flatMap (·.types)).Nodup
    | .error e => ∃ type first second,
        FirstConflict (claimants (extensions ++ [Plugin.builtin])) type first second ∧
          e = .duplicateType type first.name second.name := by
  have hcheck := checkClaims_spec [] (claimants (extensions ++ [Plugin.builtin])) List.nodup_nil
  rw [List.map_nil, ← claims_eq, List.reverse_nil, List.nil_append] at hcheck
  simp only [ofPlugins, plugins]
  cases h : checkClaims [] (claims (extensions ++ [Plugin.builtin])) with
  | ok u =>
    rw [h] at hcheck
    exact ⟨rfl, map_fst_claimants _ ▸ hcheck⟩
  | error e =>
    rw [h] at hcheck
    exact hcheck

theorem ofPlugins_ok_iff : ofPlugins extensions = .ok r ↔
    r = ⟨extensions⟩ ∧ (r.plugins.flatMap (·.types)).Nodup := by
  have hspec := ofPlugins_spec extensions
  cases h : ofPlugins extensions with
  | ok s =>
    rw [h] at hspec
    obtain ⟨rfl, hnodup⟩ := hspec
    rw [Except.ok.injEq]
    exact ⟨fun hr => hr ▸ ⟨rfl, hnodup⟩, fun hr => hr.1.symm⟩
  | error e =>
    rw [h] at hspec
    obtain ⟨type, first, second, hconflict, -⟩ := hspec
    refine ⟨nofun, ?_⟩
    rintro ⟨rfl, hnodup⟩
    rw [← map_fst_claimants] at hnodup
    exact absurd hnodup hconflict.not_nodup

/-- If no type is claimed twice, only one plugin claims a type. -/
theorem not_claimed_beside (hnodup : ((before ++ p :: after).flatMap (·.types)).Nodup)
    (hp : type ∈ p.types) : ∀ q ∈ before ++ after, type ∉ q.types := by
  intro q hq htype
  rw [(List.perm_middle.flatMap_right _).nodup_iff, List.flatMap_cons, List.nodup_append] at hnodup
  exact hnodup.2.2 type hp type (List.mem_flatMap.mpr ⟨q, hq, htype⟩) rfl

/-- The owner is the plugin at the one place whose list has the type; at the last place it is the
builtin one. -/
def Owns (plugins : List Plugin) (type : String) (owner : Owner) : Prop :=
  ∃ before after, plugins = before ++ owner.plugin :: after ∧ type ∈ owner.plugin.types ∧
    (∀ q ∈ before ++ after, type ∉ q.types) ∧ (owner.builtin = true ↔ after = [])

/-- A place among all plugins is the last one, or a place among the others. -/
theorem place_cases (h : extensions ++ [Plugin.builtin] = before ++ p :: after) :
    (after = [] ∧ extensions = before ∧ p = Plugin.builtin) ∨
      ∃ rest, after = rest ++ [Plugin.builtin] ∧ extensions = before ++ p :: rest := by
  rcases List.eq_nil_or_concat after with rfl | ⟨rest, last, rfl⟩
  · obtain ⟨hbefore, hlast⟩ := List.append_inj' h rfl
    exact .inl ⟨rfl, hbefore, (List.singleton_inj.mp hlast).symm⟩
  · rw [List.concat_eq_append, ← List.cons_append, ← List.append_assoc] at h
    obtain ⟨hextensions, hlast⟩ := List.append_inj' h rfl
    exact .inr ⟨rest, by rw [List.concat_eq_append, hlast], hextensions⟩

theorem owns_of_owner? (hnodup : (r.plugins.flatMap (·.types)).Nodup)
    (h : r.owner? type = some owner) : Owns r.plugins type owner := by
  rw [owner?] at h
  split at h
  · rename_i plugin hfind
    obtain rfl := Option.some.inj h
    obtain ⟨hclaims, before, after, hsplit, -⟩ := List.find?_eq_some_iff_append.mp hfind
    have htype := List.contains_iff_mem.mp hclaims
    have hplugins : r.plugins = before ++ plugin :: (after ++ [Plugin.builtin]) := by
      simp [plugins, hsplit]
    refine ⟨before, after ++ [Plugin.builtin], hplugins, htype, ?_, by simp⟩
    exact not_claimed_beside (hplugins ▸ hnodup) htype
  · split at h
    · rename_i hclaims
      obtain rfl := Option.some.inj h
      have htype := List.contains_iff_mem.mp hclaims
      exact ⟨r.extensions, [], rfl, htype, not_claimed_beside hnodup htype, by simp⟩
    · cases h

theorem owner?_of_owns (h : Owns r.plugins type owner) : r.owner? type = some owner := by
  obtain ⟨plugin, builtin⟩ := owner
  obtain ⟨before, after, hsplit, htype, hbeside, hbuiltin⟩ := h
  have hclaims := List.contains_iff_mem.mpr htype
  rcases place_cases hsplit with ⟨rfl, hextensions, rfl⟩ | ⟨rest, rfl, hextensions⟩
  · have hfind : r.extensions.find? (·.types.contains type) = none := by
      simpa [hextensions] using hbeside
    obtain rfl := hbuiltin.mpr rfl
    simp only [owner?, hfind, hclaims, if_true]
  · have hfind : r.extensions.find? (·.types.contains type) = some plugin := by
      refine List.find?_eq_some_iff_append.mpr ⟨hclaims, before, rest, hextensions, fun q hq => ?_⟩
      simpa using hbeside q (List.mem_append_left _ hq)
    obtain rfl : builtin = false := by simpa using hbuiltin
    simp only [owner?, hfind]

theorem owner?_eq_some_iff (hnodup : (r.plugins.flatMap (·.types)).Nodup) :
    r.owner? type = some owner ↔ Owns r.plugins type owner :=
  ⟨owns_of_owner? hnodup, owner?_of_owns⟩

theorem owner?_builtin (h : ofPlugins extensions = .ok r) (ht : type ∈ Builtin.types) :
    r.owner? type = some ⟨Plugin.builtin, true⟩ := by
  obtain ⟨-, hnodup⟩ := ofPlugins_ok_iff.mp h
  exact owner?_of_owns ⟨r.extensions, [], rfl, ht, not_claimed_beside hnodup ht, by simp⟩

theorem owner?_eq_none_iff : r.owner? type = none ↔ ∀ p ∈ r.plugins, type ∉ p.types := by
  rw [owner?, plugins, List.forall_mem_append, List.forall_mem_singleton]
  cases hfind : r.extensions.find? (·.types.contains type) with
  | some plugin =>
    have hplugin := List.mem_of_find?_eq_some hfind
    have htype : type ∈ plugin.types := by simpa using List.find?_some hfind
    exact ⟨nofun, fun h => absurd htype (h.1 plugin hplugin)⟩
  | none =>
    have hnone : ∀ p ∈ r.extensions, type ∉ p.types := by simpa using hfind
    simpa using fun _ => hnone

theorem Owns.builtin_iff (h : Owns (extensions ++ [Plugin.builtin]) type owner) :
    owner.builtin = true ↔ type ∈ Builtin.types := by
  obtain ⟨before, after, hsplit, htype, hbeside, hlast⟩ := h
  rw [hlast]
  rcases place_cases hsplit with ⟨hafter, -, hplugin⟩ | ⟨rest, rfl, -⟩
  · rw [hplugin] at htype
    exact iff_of_true hafter htype
  · exact iff_of_false (by simp) (hbeside Plugin.builtin (by simp))

/-- A registry is put together exactly if no type is claimed twice among the given plugins and the
builtin one. It then takes every type to the one plugin that claims it, if any, which is the builtin
plugin exactly for the types of the catalog. Otherwise the first conflict is told. -/
theorem ofPlugins_routes (extensions : List Plugin) :
    ((∃ r, ofPlugins extensions = .ok r) ↔
      ((extensions ++ [Plugin.builtin]).flatMap (·.types)).Nodup) ∧
    (∀ r, ofPlugins extensions = .ok r →
      r.plugins = extensions ++ [Plugin.builtin] ∧
      ∀ type,
        (∀ owner, r.owner? type = some owner ↔ Owns r.plugins type owner) ∧
        (r.owner? type = none ↔ ∀ p ∈ r.plugins, type ∉ p.types) ∧
        ∀ owner, r.owner? type = some owner → (owner.builtin = true ↔ type ∈ Builtin.types)) ∧
    ∀ e, ofPlugins extensions = .error e → ∃ type first second,
      FirstConflict (claimants (extensions ++ [Plugin.builtin])) type first second ∧
        e = .duplicateType type first.name second.name := by
  refine ⟨?_, fun r h => ?_, fun e h => ?_⟩
  · simp only [ofPlugins_ok_iff, exists_eq_left, plugins]
  · obtain ⟨rfl, hnodup⟩ := ofPlugins_ok_iff.mp h
    refine ⟨rfl, fun type => ⟨fun owner => owner?_eq_some_iff hnodup, owner?_eq_none_iff, ?_⟩⟩
    intro owner ho
    exact (owns_of_owner? hnodup ho).builtin_iff
  · have hspec := ofPlugins_spec extensions
    rw [h] at hspec
    exact hspec

end Registry

/-- A plugin that claims a type of its own. -/
def Sample.memoryPlugin : Plugin := .generic "memory" "1.0" ["Memory"] []

/-- A plugin that claims a type of the catalog too. -/
def Sample.agentPlugin : Plugin := .generic "custom-agents" "0.1" ["Memory", "Agent"] []

namespace Registry

/-- The first plugin goes in beside the builtin one and owns its type; the other one is in conflict with
it over agents. -/
theorem ofPlugins_routes_samples :
    ofPlugins [Sample.memoryPlugin] = .ok ⟨[Sample.memoryPlugin]⟩ ∧
    Owns [Sample.memoryPlugin, Plugin.builtin] "Memory" ⟨Sample.memoryPlugin, false⟩ ∧
    ofPlugins [Sample.agentPlugin] =
      .error (.duplicateType "Agent" "custom-agents" "agentspec-builtin") ∧
    ∃ first second,
      FirstConflict (claimants [Sample.agentPlugin, Plugin.builtin]) "Agent" first second ∧
        first.name = "custom-agents" ∧ second.name = "agentspec-builtin" := by
  have hok : ofPlugins [Sample.memoryPlugin] = .ok ⟨[Sample.memoryPlugin]⟩ := rfl
  have herror : ofPlugins [Sample.agentPlugin] =
      .error (.duplicateType "Agent" "custom-agents" "agentspec-builtin") := rfl
  obtain ⟨-, hroutes⟩ := (ofPlugins_routes [Sample.memoryPlugin]).2.1 _ hok
  obtain ⟨type, first, second, hconflict, htold⟩ :=
    (ofPlugins_routes [Sample.agentPlugin]).2.2 _ herror
  obtain ⟨rfl, hfirst, hsecond⟩ := RegistryError.duplicateType.inj htold
  exact ⟨hok, ((hroutes "Memory").1 _).mp rfl, herror, first, second, hconflict, hfirst.symm,
    hsecond.symm⟩

end Registry
end AgentGraph
