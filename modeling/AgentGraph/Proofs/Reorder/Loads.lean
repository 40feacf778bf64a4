import AgentGraph.Proofs.Cycle
import AgentGraph.Proofs.Reorder.Kinds
/-!
# Loads of records with their keys in another order

Two loads go on in step: each id stands for nothing, is in progress or was resolved to twins in both, and
the objects that either is yet to make correspond. Where every record declares its id, the second load comes
to the records of the first in the order of the first, so it makes their twins.
-/
namespace AgentGraph
open List (Forall₂)

/-- What an id stands for in two loads: it is in progress in both, or was resolved to twins. -/
inductive Resolution.Twins (ρ : Nat → Nat → Prop) : Resolution → Resolution → Prop
  | inProgress : Twins ρ .inProgress .inProgress
  | resolved {c c' : Component} (h : c.Twins ρ c') : Twins ρ (.resolved c) (.resolved c')

/-- Two loads in step. -/
structure LoadState.Twins (ρ : Nat → Nat → Prop) (s s' : LoadState) : Prop where
  resolution : ∀ id, Option.Rel (Resolution.Twins ρ) (Dict.get? s.resolution id)
    (Dict.get? s'.resolution id)
  /-- The objects made from here on correspond. -/
  supply : ∀ k, ρ (s.supply.nextHandle + k) (s'.supply.nextHandle + k)

variable {ρ : Nat → Nat → Prop} {s s' : LoadState} {id : String}

theorem LoadState.Twins.resolved? (h : s.Twins ρ s') (id : String) :
    Option.Rel (Component.Twins ρ) (s.resolved? id) (s'.resolved? id) := by
  have hrel := h.resolution id
  unfold LoadState.resolved?
  generalize Dict.get? s.resolution id = found at hrel
  generalize Dict.get? s'.resolution id = found' at hrel
  cases hrel with
  | none => exact .none
  | some hboth =>
    cases hboth with
    | inProgress => exact .none
    | resolved htwins => exact .some htwins

namespace Load

theorem shadows_setResolution {r r' : Resolution} (h : r.Twins ρ r') :
    Shadows (LoadState.Twins ρ) (fun _ _ => True) (setResolution id r) (setResolution id r') := by
  refine .modify fun s s' hs => ⟨fun other => ?_, hs.supply⟩
  simp only [Dict.get?_put]
  split
  · exact .some h
  · exact hs.resolution other

theorem shadows_freshHandle : Shadows (LoadState.Twins ρ) ρ freshHandle freshHandle := by
  refine fun s s' hs => .ok ⟨hs.supply 0, hs.resolution, fun k => ?_⟩
  have hnext := hs.supply (1 + k)
  rwa [← Nat.add_assoc, ← Nat.add_assoc] at hnext

theorem carried_typeOf {naming : NamingMode} {f f' : Dict Tree} (hproper : (Tree.map f).Proper)
    (h : Dict.Reordered Tree.Reordered f f') :
    Carried (fun type type' => typeOf naming f = .ok type ∧ type = type') (typeOf naming f)
      (typeOf naming f') := by
  intro type htype
  have hrel := Tree.rel_get? h hproper naming.protocol.componentType
  rw [typeOf_ok htype] at hrel
  generalize hget : Dict.get? f' naming.protocol.componentType = found at hrel
  cases hrel with
  | some hboth =>
    obtain rfl := (Tree.reordered_scalar rfl).mp hboth.2.2
    refine ⟨type, ?_, htype, rfl⟩
    simp only [typeOf, hget]

theorem plugin_eq_builtin {type : String} {plugin : Plugin}
    (h : pluginOf .builtin type = .ok plugin) : plugin = Plugin.builtin := by
  unfold pluginOf at h
  split at h
  · rename_i owner howner
    cases h
    rcases Registry.owner?_cases howner with hextension | ⟨-, howner⟩
    · cases hextension
    · rw [howner]
  · cases h

section
variable {reader reader' : Reader} {r r' : Record} (hfields : r.Reordered r')
  (hread : Shadows (LoadState.Twins ρ) (Kind.Twins ρ) (Builtin.read reader r)
    (Builtin.read reader' r'))
include hfields hread

theorem shadows_build :
    Shadows (LoadState.Twins ρ) (Component.Twins ρ) (build .builtin reader r id)
      (build .builtin reader' r' id) := by
  unfold build
  refine .lift (Record.carried_requiredText hfields _) ?_
  rintro name _ rfl
  refine .lift (Record.carried_optionalText hfields _) ?_
  rintro description _ rfl
  refine .lift (Record.carried_mapping hfields _) fun metadata metadata' hmetadata => ?_
  refine Shadows.bind hread fun kind kind' hkind => ?_
  refine Shadows.bind shadows_freshHandle fun handle handle' hhandle => ?_
  have htwins : Component.Twins ρ (.mk handle id name description metadata kind)
      (.mk handle' id name description metadata' kind') :=
    Component.twins_mk hhandle (Tree.Reordered.sameDict hmetadata.2 hmetadata.1) hkind
  exact Shadows.bind (shadows_setResolution (.resolved htwins)) fun _ _ _ => .pure htwins

/-- The objects of a known id: those that the id stands for, or new ones. -/
theorem shadows_resolve :
    Shadows (LoadState.Twins ρ) (Component.Twins ρ)
      (do
        match (← get).resolved? id with
        | some c => return c
        | none => build .builtin reader r id)
      (do
        match (← get).resolved? id with
        | some c => return c
        | none => build .builtin reader' r' id) := by
  refine .get fun s s' hs => ?_
  have hrel := hs.resolved? id
  generalize s.resolved? id = found at hrel
  generalize s'.resolved? id = found' at hrel
  cases hrel with
  | some htwins => exact .pure htwins
  | none => exact shadows_build hfields hread

end

section
variable {ctx : Context} {sidecar' : Dict (Dict Tree)} {document : Tree} {f f' : Dict Tree}
  (hsupplied : ∀ id c, Dict.get? ctx.supplied id = some c → c.Twins ρ c)
  (hsidecar : ∀ id, Option.Rel
    (fun f f' => (Tree.map f).Proper ∧ Dict.Reordered Tree.Reordered f f')
    (Dict.get? ctx.sidecar id) (Dict.get? sidecar' id))
include hsupplied hsidecar

theorem shadows_follow {load load' : Dict Tree → LoadM Component}
    (hload : ∀ f f', Dict.get? ctx.sidecar id = some f → (Tree.map f).Proper →
      Dict.Reordered Tree.Reordered f f' →
      Shadows (LoadState.Twins ρ) (Component.Twins ρ) (load f) (load' f')) :
    Shadows (LoadState.Twins ρ) (Component.Twins ρ) (follow ctx load id)
      (follow { ctx with sidecar := sidecar' } load' id) := by
  unfold follow
  refine .get fun s s' hs => ?_
  have hrel := hs.resolution id
  generalize Dict.get? s.resolution id = found at hrel
  generalize Dict.get? s'.resolution id = found' at hrel
  cases hrel with
  | some hboth =>
    cases hboth with
    | inProgress => exact .throw
    | resolved htwins => exact .pure htwins
  | none =>
    simp only
    cases hc : Dict.get? ctx.supplied id with
    | some c =>
      have htwins := hsupplied id c hc
      exact Shadows.bind (shadows_setResolution (.resolved htwins)) fun _ _ _ => .pure htwins
    | none =>
      have hentry := hsidecar id
      simp only
      cases hf : Dict.get? ctx.sidecar id with
      | none => exact .throw
      | some f =>
        rw [hf] at hentry
        generalize Dict.get? sidecar' id = entry at hentry
        cases hentry with
        | @some _ f' hff =>
          refine Shadows.bind (shadows_setResolution .inProgress) fun _ _ _ => ?_
          refine Shadows.bind (hload f f' hf hff.1 hff.2) fun c c' htwins => ?_
          exact Shadows.bind (shadows_setResolution (.resolved htwins)) fun _ _ _ => .pure htwins

variable (hregistry : ctx.registry = .builtin) (hdefined : ctx.sidecar = definedIn ctx.naming document)
  (hdeclared : ∀ f, IsRecord ctx.naming document f →
    Dict.has f ctx.naming.protocol.componentType = true → declaredId? f ≠ none)
include hregistry hdefined hdeclared

/-- A mapping that is a record if it has a type is loaded alike with its keys in another order. -/
theorem shadows_record (room : Nat)
    (hf : Dict.has f ctx.naming.protocol.componentType = true → IsRecord ctx.naming document f)
    (hproper : (Tree.map f).Proper) (h : Dict.Reordered Tree.Reordered f f') :
    Shadows (LoadState.Twins ρ) (Component.Twins ρ) (record ctx room f)
      (record { ctx with sidecar := sidecar' } room f') := by
  induction room generalizing f f' with
  | zero => exact .throw
  | succ room ih =>
    unfold record
    refine .lift (carried_typeOf hproper h) ?_
    rintro type _ ⟨htype, rfl⟩
    have htyped : Dict.has f ctx.naming.protocol.componentType = true :=
      Dict.has_iff.mpr (Dict.mem_keys_iff.mpr ⟨_, typeOf_ok htype⟩)
    have hrecord := hf htyped
    -- what the level below gives for the uses of this record
    have hagrees : Reader.Agrees (LoadState.Twins ρ) (Component.Twins ρ)
        (· ∈ places ctx.naming f)
        ⟨ctx.release, ctx.naming, record ctx room, follow ctx (record ctx room)⟩
        ⟨ctx.release, ctx.naming, record { ctx with sidecar := sidecar' } room,
          follow { ctx with sidecar := sidecar' }
            (record { ctx with sidecar := sidecar' } room)⟩ := by
      constructor
      · rfl
      · intro use use' huse huseproper huses href
        exact ih (fun husetype => hrecord.nested ⟨huse, husetype, href⟩) huseproper huses
      · intro id
        exact shadows_follow hsupplied hsidecar fun g g' hg hgproper hgg =>
          ih (fun _ => isRecord_entry (hdefined ▸ hg)) hgproper hgg
    have hfields : Record.Reordered ⟨f, ctx.naming, type⟩ ⟨f', ctx.naming, type⟩ :=
      ⟨rfl, rfl, h, hproper⟩
    have hstands : Builtin.StandsIn (· ∈ places ctx.naming f) ⟨f, ctx.naming, type⟩
        (Builtin.componentFields type) := fun field hfield value hvalue use huse =>
      (mem_places htype).mpr ⟨field, hfield, value, hvalue, huse⟩
    have hplugin : Carried (fun plugin plugin' => plugin = Plugin.builtin ∧ plugin = plugin')
        (pluginOf ctx.registry type) (pluginOf ctx.registry type) := fun plugin hplugin =>
      ⟨plugin, hplugin, plugin_eq_builtin (hregistry ▸ hplugin), rfl⟩
    refine .lift hplugin ?_
    rintro _ _ ⟨rfl, rfl⟩
    have hid : Carried (fun id? id?' => id? ≠ none ∧ id? = id?')
        (Record.optionalText ⟨f, ctx.naming, type⟩ "id")
        (Record.optionalText ⟨f', ctx.naming, type⟩ "id") := by
      intro id? hread
      obtain ⟨_, hread', rfl⟩ := Record.carried_optionalText hfields "id" id? hread
      exact ⟨id?, hread', optionalText_id hread ▸ hdeclared f hrecord htyped, rfl⟩
    refine .lift hid ?_
    rintro id? _ ⟨hsome, rfl⟩
    obtain ⟨id, rfl⟩ := Option.ne_none_iff_exists'.mp hsome
    exact shadows_resolve hfields (Builtin.shadows_read hagrees hfields hstands)

end
end Load
end AgentGraph
