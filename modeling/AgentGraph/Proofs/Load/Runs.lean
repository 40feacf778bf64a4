import AgentGraph.Load.Reader
import AgentGraph.Proofs.Load.Built
/-!
# Runs of loading

A run of loading may fail in one way only here: a record nests too deep. Otherwise it keeps a property
of the state, moves the state as it may be moved, and gives a result that fits. Runs are put together
step by step.
-/
namespace AgentGraph

/-- What is kept while a document is loaded, and how one state may follow another. -/
structure Watch where
  inv : LoadState → Prop
  step : LoadState → LoadState → Prop
  refl : ∀ s, step s s
  trans : ∀ {s t u}, step s t → step t u → step s u

/-- A failure for want of room. -/
def LoadError.IsTooDeep (e : LoadError) : Prop := ∃ limit, e = .tooDeep limit

namespace Watch
variable {W : Watch} {α β : Type} {s : LoadState} {a : α} {m : LoadM α} {f : α → LoadM β}
  {P : LoadState → α → Prop} {Q : LoadState → β → Prop}

/-- From a state on, a run ends well in a state and a result that fit, or it finds no room. -/
def Runs (W : Watch) (s : LoadState) (m : LoadM α) (Q : LoadState → α → Prop) : Prop :=
  W.inv s → match m s with
    | .ok (a, t) => W.inv t ∧ W.step s t ∧ Q t a
    | .error e => e.IsTooDeep

theorem Runs.pure (h : P s a) : W.Runs s (pure a) P := fun hs => ⟨hs, W.refl s, h⟩

theorem Runs.bind (h : W.Runs s m P)
    (k : ∀ t a, W.step s t → P t a → W.Runs t (f a) Q) : W.Runs s (m >>= f) Q := by
  intro hs
  have hm := h hs
  simp only [Bind.bind, StateT.bind, Except.bind]
  split at hm
  · rename_i a t hrun
    have hf := k t a hm.2.1 hm.2.2 hm.1
    rw [hrun]
    simp only
    split at hf
    · exact ⟨hf.1, W.trans hm.2.1 hf.2.1, hf.2.2⟩
    · exact hf
  · rename_i e hrun
    rw [hrun]
    exact hm

theorem Runs.mono {P' : LoadState → α → Prop} (h : W.Runs s m P)
    (k : ∀ t a, W.step s t → P t a → P' t a) : W.Runs s m P' := by
  intro hs
  have hm := h hs
  split at hm
  · exact ⟨hm.1, hm.2.1, k _ _ hm.2.1 hm.2.2⟩
  · exact hm

theorem Runs.tooDeep (limit : Nat) : W.Runs s (throw (.tooDeep limit) : LoadM α) P :=
  fun _ => ⟨limit, rfl⟩

theorem Runs.get {f : LoadState → LoadM β} (h : W.Runs s (f s) Q) : W.Runs s (get >>= f) Q := h

theorem Runs.lift {x : Except LoadError α} (hx : x = .ok a) (h : W.Runs s (f a) Q) :
    W.Runs s (liftM x >>= f) Q := by
  subst hx
  exact h

end Watch

namespace Record
variable {r : Record} {field : String}

theorem optionalText_ok {text : Option String} (h : r.get? field = text.map .string) :
    r.optionalText field = .ok text := by
  rw [optionalText, h]
  cases text <;> rfl

theorem requiredText_ok {text : String} (h : r.get? field = some (.string text)) :
    r.requiredText field = .ok text := by
  have hoptional : r.optionalText field = .ok (some text) := optionalText_ok h
  rw [requiredText, hoptional]
  rfl

theorem optionalBool_ok {value : Option Bool} (h : r.get? field = value.map .bool) :
    r.optionalBool field = .ok value := by
  rw [optionalBool, h]
  cases value <;> rfl

theorem mapping?_ok {entries : Option (Dict Tree)} (h : r.get? field = entries.map .map) :
    r.mapping? field = .ok entries := by
  rw [mapping?, h]
  cases entries <;> rfl

theorem mapping_ok {entries : Option (Dict Tree)} (h : r.get? field = entries.map .map) :
    r.mapping field = .ok (entries.getD []) := by
  rw [mapping, mapping?_ok h]
  rfl

theorem texts_ok (texts : Dict String) :
    r.texts field (texts.mapValues .string) = .ok texts := by
  induction texts with
  | nil => rfl
  | cons p rest ih =>
    have hcons : Dict.mapValues Tree.string (p :: rest) =
        (p.1, .string p.2) :: Dict.mapValues .string rest := rfl
    rw [hcons, Record.texts, ih]
    rfl

theorem textMapping_ok {texts : Dict String}
    (h : r.get? field = some (.map (texts.mapValues .string))) :
    r.textMapping field = .ok texts := by
  have hmapping : r.mapping field = .ok ((some (texts.mapValues .string)).getD []) := mapping_ok h
  rw [textMapping, hmapping]
  exact texts_ok texts

theorem properties_ok {properties : List Property}
    (hread : ∀ p ∈ properties, p.FromTree)
    (h : r.get? field = some (.list (properties.map Property.toTree))) :
    r.properties field = .ok properties := by
  rw [Record.properties, h]
  simp only [Property.ofTrees_toTrees hread]
  rfl

theorem slots_ok {s : Slots} (hs : s.Made)
    (hin : r.get? "inputs" = some (.list (s.inputs.map Property.toTree)))
    (hout : r.get? "outputs" = some (.list (s.outputs.map Property.toTree))) :
    r.slots = .ok s := by
  rw [slots, properties_ok (fun p hp => hs.read p (List.mem_append_left _ hp)) hin,
    properties_ok (fun p hp => hs.read p (List.mem_append_right _ hp)) hout]
  show (Slots.of s.inputs s.outputs).mapError LoadError.property = .ok s
  rw [hs.unique]
  rfl

end Record
end AgentGraph
