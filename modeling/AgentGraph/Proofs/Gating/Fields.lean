import AgentGraph.Proofs.BuiltinGraph
import AgentGraph.Tree.Depth
/-!
# Fields of builtin kinds and the releases

The fields that a release may not have yet are scalars, every kind has a field that is in all releases,
and the fields that are for components hold components and lists of these alone.
-/
namespace AgentGraph

mutual
/-- A value that consists of components and lists alone. -/
def Value.Composed : Value → Prop
  | .component _ => True
  | .list items => composedItems items
  | _ => False
/-- The values of a list consist of components and lists alone. -/
def composedItems : List Value → Prop
  | [] => True
  | v :: rest => v.Composed ∧ composedItems rest
end

theorem mapFreeItems_iff {items : List Value} : mapFreeItems items ↔ ∀ v ∈ items, v.MapFree := by
  induction items with
  | nil => simp [mapFreeItems]
  | cons v rest ih => simp [mapFreeItems, ih]

namespace Kind
variable {k : Kind}

theorem composedItems_map {α : Type} (f : α → Value) (xs : List α) (h : ∀ x, (f x).Composed) :
    composedItems (xs.map f) := by
  induction xs with
  | nil => simp [composedItems]
  | cons x rest ih => exact ⟨h x, ih⟩

theorem composed_componentList (cs : List Component) : (Value.componentList cs).Composed :=
  composedItems_map _ cs fun c => by simp [Value.Composed]

/-- The fields for components hold nothing else. -/
theorem composed_fields (h : k.isBuiltin = true) :
    ∀ f ∈ k.fields, f.1 ∈ Builtin.componentFields k.componentType → f.2.Composed := by
  cases k with
  | modelConfig c =>
    intro f _ hf
    cases hc : c.provider <;>
      simp [componentType, hc, Provider.componentType, Builtin.componentFields] at hf
  | tool t =>
    intro f _ hf
    cases ht : t.site <;>
      simp [componentType, Tool.componentType, ht, Builtin.componentFields] at hf
  | swarm first pairs =>
    simp only [fields, List.forall_mem_cons]
    refine ⟨fun _ => trivial, fun _ => ?_, by simp⟩
    exact composedItems_map _ pairs fun p => composed_componentList _
  | node role s =>
    cases role <;>
      simp [componentType, NodeRole.componentType, Builtin.componentFields, fields, NodeRole.fields,
        Slots.fields, Value.Composed]
  | controlFlowEdge f b t =>
    cases b <;>
      simp [componentType, Builtin.componentFields, fields, optionalText, Value.Composed]
  | extension t fs => cases h
  | _ =>
    simp [componentType, Builtin.componentFields, fields, Slots.fields, Value.Composed,
      composed_componentList]

/-- Every kind has a field that is in all releases. -/
theorem exists_shown (h : k.isBuiltin = true) (release : Release) :
    ∃ f ∈ k.fields, Policy.builtin.shows release k.componentType f.1 = true := by
  have hshown : ∀ type ∈ Builtin.types, ∀ field ∈ Builtin.fieldNames type,
      field ∈ ["modelId", "inputs", "firstAgent", "groupManager", "fromNode", "sourceNode"] →
        Policy.builtin.shows release type field = true := by
    cases release <;> decide +kernel
  have hfirst : ∃ f ∈ k.fields,
      f.1 ∈ ["modelId", "inputs", "firstAgent", "groupManager", "fromNode", "sourceNode"] := by
    cases k with
    | modelConfig c => exact ⟨("modelId", .text c.modelId), by simp [fields, ModelConfig.fields]⟩
    | extension t fs => cases h
    | _ => simp [fields, Tool.fields, Slots.fields]
  obtain ⟨f, hf, hname⟩ := hfirst
  have hfield := (Kind.keys_fields h).subset (Dict.mem_keys_of_mem hf)
  exact ⟨f, hf, hshown _ (Kind.type_mem h) _ hfield hname⟩

/-- A field that a release does not have yet is a scalar. -/
theorem scalar_of_gated (h : k.isBuiltin = true) {release : Release} {f : String × Value}
    (hf : f ∈ k.fields) (hgated : Policy.builtin.fieldAllowed k.componentType f.1 release = false) :
    ∃ t, f.2 = .data t ∧ t.isContainer = false := by
  have hnames : ∀ type ∈ Builtin.types, ∀ field ∈ Builtin.fieldNames type,
      Policy.builtin.fieldAllowed type field release = false →
        field ∈ ["humanInTheLoop", "apiType", "requiresConfirmation"] := by
    cases release <;> decide +kernel
  have hname := hnames _ (Kind.type_mem h) f.1
    ((Kind.keys_fields h).subset (Dict.mem_keys_of_mem hf)) hgated
  have hscalar : ∀ f ∈ k.fields, f.1 ∈ ["humanInTheLoop", "apiType", "requiresConfirmation"] →
      ∃ t, f.2 = .data t ∧ t.isContainer = false := by
    clear hnames hname hgated hf f
    cases k with
    | modelConfig c =>
      cases hp : c.parameters <;> cases hu : c.url <;> cases hk : c.apiKey <;> cases ht : c.apiType <;>
        simp [fields, ModelConfig.fields, optionalText, Value.text, Tree.isContainer, hp, hu, hk, ht]
    | tool t =>
      cases hs : t.site <;>
        simp [fields, Tool.fields, Slots.fields, Endpoint.fields, Value.bool, Tree.isContainer, hs]
    | node role s =>
      cases role with
      | finish b => cases b <;> simp [fields, NodeRole.fields, Slots.fields, optionalText]
      | _ => simp [fields, NodeRole.fields, Slots.fields]
    | controlFlowEdge f b t => cases b <;> simp [fields, optionalText]
    | extension t fs => cases h
    | _ => simp [fields, Slots.fields, Value.bool, Tree.isContainer]
  exact hscalar f hf hname

end Kind
end AgentGraph
