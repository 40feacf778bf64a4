import AgentGraph.Proofs.Legible
/-!
# What is read back

A kind of the builtin catalog is read back by its fields. The values of an extension are read back by
their shape: data stays data, a component gives one, and lists and mappings in which there is a
component are read through, while all others become data.
-/
namespace AgentGraph
open List (Forall₂)

mutual
/-- A value as it is read back where only its shape is known. -/
inductive ReturnedValue (R : Component → Component → Prop) : Value → Value → Prop
  | data (t : Tree) : ReturnedValue R (.data t) (.data t)
  | property (p : Property) : ReturnedValue R (.property p) (.data p.toTree)
  | component {c c' : Component} : R c c' → ReturnedValue R (.component c) (.component c')
  | list {items items' : List Value} : ReturnedItems R items items' →
      ReturnedValue R (.list items) (.list items')
  | map {entries entries' : List (String × Value)} : ReturnedEntries R entries entries' →
      ReturnedValue R (.map entries) (.map entries')
  | bareList {items : List Value} (t : Tree) : Value.componentsOfList items = [] →
      ReturnedValue R (.list items) (.data t)
  | bareMap {entries : List (String × Value)} (t : Tree) : Value.componentsOfEntries entries = [] →
      ReturnedValue R (.map entries) (.data t)
/-- The values of a list as they are read back. -/
inductive ReturnedItems (R : Component → Component → Prop) : List Value → List Value → Prop
  | nil : ReturnedItems R [] []
  | cons {v v' : Value} {rest rest' : List Value} : ReturnedValue R v v' →
      ReturnedItems R rest rest' → ReturnedItems R (v :: rest) (v' :: rest')
/-- The values of a mapping as they are read back. -/
inductive ReturnedEntries (R : Component → Component → Prop) :
    List (String × Value) → List (String × Value) → Prop
  | nil : ReturnedEntries R [] []
  | cons {key : String} {v v' : Value} {rest rest' : List (String × Value)} :
      ReturnedValue R v v' → ReturnedEntries R rest rest' →
      ReturnedEntries R ((key, v) :: rest) ((key, v') :: rest')
end

section Returned
variable {R R' : Component → Component → Prop}

mutual
/-- What a value holds stands for what it held, place by place. -/
theorem ReturnedValue.held {v v' : Value} (h : ReturnedValue R v v') :
    Forall₂ R v.components v'.components := by
  match h with
  | .data t => exact .nil
  | .property p => exact .nil
  | .component hc => exact .cons hc .nil
  | .list hitems =>
    rw [Value.components, Value.components]
    exact hitems.held
  | .map hentries =>
    rw [Value.components, Value.components]
    exact hentries.held
  | .bareList t hbare =>
    rw [Value.components, hbare]
    exact .nil
  | .bareMap t hbare =>
    rw [Value.components, hbare]
    exact .nil
theorem ReturnedItems.held {items items' : List Value} (h : ReturnedItems R items items') :
    Forall₂ R (Value.componentsOfList items) (Value.componentsOfList items') := by
  match h with
  | .nil => exact .nil
  | .cons hv hrest =>
    rw [Value.componentsOfList, Value.componentsOfList]
    exact List.rel_append hv.held hrest.held
theorem ReturnedEntries.held {entries entries' : List (String × Value)}
    (h : ReturnedEntries R entries entries') :
    Forall₂ R (Value.componentsOfEntries entries) (Value.componentsOfEntries entries') := by
  match h with
  | .nil => exact .nil
  | .cons hv hrest =>
    rw [Value.componentsOfEntries, Value.componentsOfEntries]
    exact List.rel_append hv.held hrest.held
end

mutual
theorem ReturnedValue.mono {v v' : Value} (h : ReturnedValue R v v')
    (himp : ∀ c c', R c c' → R' c c') : ReturnedValue R' v v' := by
  match h with
  | .data t => exact .data t
  | .property p => exact .property p
  | .component hc => exact .component (himp _ _ hc)
  | .list hitems => exact .list (hitems.mono himp)
  | .map hentries => exact .map (hentries.mono himp)
  | .bareList t hbare => exact .bareList t hbare
  | .bareMap t hbare => exact .bareMap t hbare
theorem ReturnedItems.mono {items items' : List Value} (h : ReturnedItems R items items')
    (himp : ∀ c c', R c c' → R' c c') : ReturnedItems R' items items' := by
  match h with
  | .nil => exact .nil
  | .cons hv hrest => exact .cons (hv.mono himp) (hrest.mono himp)
theorem ReturnedEntries.mono {entries entries' : List (String × Value)}
    (h : ReturnedEntries R entries entries') (himp : ∀ c c', R c c' → R' c c') :
    ReturnedEntries R' entries entries' := by
  match h with
  | .nil => exact .nil
  | .cons hv hrest => exact .cons (hv.mono himp) (hrest.mono himp)
end

end Returned

namespace Writer
variable {w : Writer} {R R' : Component → Component → Prop} {k k' : Kind}

/-- A field of an extension as it is read back, where some names are declared. -/
def ReturnedField (w : Writer) (R : Component → Component → Prop) (declared : List String)
    (f f' : String × Value) : Prop :=
  f'.1 = w.target.naming.readAs declared f.1 ∧ ReturnedValue R f.2 f'.2

/-- A kind as it is read back. -/
inductive Returned (w : Writer) (R : Component → Component → Prop) : Kind → Kind → Prop
  | builtin {k k' : Kind} : Kind.Restored w.shows R k k' → Returned w R k k'
  | extension {type : String} {fields fields' : Dict Value} {declared : List String} :
      w.registry.KeepsBags type declared → (Dict.keys fields').Nodup →
      Forall₂ (w.ReturnedField R declared) fields fields' →
      Returned w R (.extension type fields) (.extension type fields')

/-- Fields come back under the names that they are read as. -/
theorem keys_returned {declared : List String} {fields fields' : Dict Value}
    (h : Forall₂ (w.ReturnedField R declared) fields fields') :
    Dict.keys fields' = (Dict.keys fields).map (w.target.naming.readAs declared) := by
  induction h with
  | nil => rfl
  | cons hf _ ih => rw [Dict.keys_cons, Dict.keys_cons, List.map_cons, ih, hf.1]

/-- Data in a field of an extension comes back under the name that the field is read as. -/
theorem get?_returned {declared : List String} {fields fields' : Dict Value} {field : String} {t : Tree}
    (h : Forall₂ (w.ReturnedField R declared) fields fields') (hnodup : (Dict.keys fields').Nodup)
    (ht : (field, .data t) ∈ fields) :
    Dict.get? fields' (w.target.naming.readAs declared field) = some (.data t) := by
  obtain ⟨⟨name, v⟩, hmem, hname, hvalue⟩ := exists_left h.flip ht
  obtain rfl : name = w.target.naming.readAs declared field := hname
  cases hvalue with
  | data t => exact Dict.get?_of_mem hnodup hmem

theorem Returned.held (h : w.Returned R k k') :
    Forall₂ R (heldComponents k.fields) (heldComponents k'.fields) := by
  cases h with
  | builtin h => exact h.held
  | extension _ _ hfields =>
    rw [heldComponents, heldComponents, Value.componentsOfEntries_eq,
      Value.componentsOfEntries_eq]
    exact List.rel_flatMap hfields fun _ _ hf => hf.2.held

theorem Returned.slots (h : w.Returned R k k') : k'.slots? = k.slots? := by
  cases h with
  | builtin h => exact h.slots
  | extension _ _ _ => rfl

/-- What is read back of a builtin kind equals every equal of the kind, without what is not shown. -/
theorem Returned.same {l : Kind} (h : w.Returned R k k') (hl : l.isBuiltin = true)
    (hR : Carries w.shows R (heldComponents l.fields)) (hs : k.same l = true) :
    k'.same (l.hide w.shows) = true := by
  cases h with
  | builtin h => exact h.same hR hs
  | extension _ _ _ =>
    cases l with
    | extension _ _ => cases hl
    | _ => simp [Kind.same] at hs

theorem Returned.mono (h : w.Returned R k k') (himp : ∀ c c', R c c' → R' c c') :
    w.Returned R' k k' := by
  cases h with
  | builtin h => exact .builtin (h.mono himp)
  | extension hkept hnodup hfields =>
    exact .extension hkept hnodup (hfields.imp fun _ _ hf => ⟨hf.1, hf.2.mono himp⟩)

end Writer
end AgentGraph
