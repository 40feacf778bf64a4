import AgentGraph.Proofs.FullGraph
import AgentGraph.Proofs.Sidecar.Plan
/-!
# What a record says

The record of a component written out at once, given the records of all others: the discriminator,
the base entries, an entry for each visible field, and the records that it carries. Records that are
known stay as they are, so a later state reads the same.
-/
namespace AgentGraph

/-- The records built so far by id. -/
abbrev Records := Dict (Dict Tree)

def Records.at (records : Records) (id : String) : Dict Tree := (Dict.get? records id).getD []

namespace Writer
variable {w : Writer} {l : Layout} {r r' : Records} {root c d : Component}

mutual
/-- What a value looks like in a document. -/
def render (w : Writer) (l : Layout) (r : Records) : Value → Tree
  | .data t => t.strip
  | .component c => w.useOf l c.id (r.at c.id)
  | .property p => p.toTree
  | .list items => .list (renderItems w l r items)
  | .map entries => .map (renderEntries w l r entries)
/-- What the values of a list look like. -/
def renderItems (w : Writer) (l : Layout) (r : Records) : List Value → List Tree
  | [] => []
  | v :: rest => render w l r v :: renderItems w l r rest
/-- What the entries of a mapping look like. -/
def renderEntries (w : Writer) (l : Layout) (r : Records) : List (String × Value) → Dict Tree
  | [] => []
  | (key, v) :: rest =>
    if isReservedKey key then renderEntries w l r rest
    else (key, render w l r v) :: renderEntries w l r rest
end

/-- The entry for the description, if there is one. -/
def descriptionEntry (c : Component) : Dict Tree :=
  match c.description with
  | some text => [("description", .string text)]
  | none => []

/-- The entry for the metadata, if there are any. -/
def metadataEntry (c : Component) : Dict Tree :=
  if c.metadata.isEmpty then [] else [("metadata", (Tree.map c.metadata).strip)]

/-- The entries of a record that do not depend on the kind. -/
def baseOf (c : Component) : Dict Tree :=
  [("id", .string c.id), ("name", .string c.name)] ++ descriptionEntry c ++ metadataEntry c

def fieldEntries (w : Writer) (l : Layout) (r : Records) (fields : Dict Value) : Dict Tree :=
  fields.map fun f => (w.target.naming.toDocument f.1, w.render l r f.2)

/-- The entries of records carried for others. -/
def carriedEntries (r : Records) (ids : List String) : Dict Tree :=
  ids.map fun id => (id, .map (r.at id))

/-- The entry under which an id carries the records of others, if it does. -/
def carried (w : Writer) (l : Layout) (r : Records) (id : String) : Dict Tree :=
  if (l.hosted id).isEmpty then []
  else [(w.target.naming.protocol.referencedComponents, .map (carriedEntries r (l.hosted id)))]

/-- The entries that name the plugin of a type, unless it is the builtin one. -/
def pluginEntries (w : Writer) (type : String) : Dict Tree :=
  match w.registry.owner? type with
  | some ⟨plugin, false⟩ => [(w.target.naming.protocol.pluginName, .string plugin.name),
      (w.target.naming.protocol.pluginVersion, .string plugin.version)]
  | _ => []

/-- The whole record of a component. The base entries are those of the component at hand, the fields
those of the component first met under its id. -/
def fullRecord (w : Writer) (l : Layout) (r : Records) (c d : Component) : Dict Tree :=
  w.header c.componentType ++ baseOf c ++ w.fieldEntries l r (w.shown d) ++ w.carried l r c.id

theorem header_eq (type : String) : w.header type =
    (w.target.naming.protocol.componentType, .string type) :: w.pluginEntries type := by
  have hplugin : w.target.naming.protocol.componentType ≠ w.target.naming.protocol.pluginName ∧
      w.target.naming.protocol.componentType ≠ w.target.naming.protocol.pluginVersion ∧
      w.target.naming.protocol.pluginName ≠ w.target.naming.protocol.pluginVersion := by
    cases w.target.naming <;> decide
  rw [header, pluginEntries]
  cases w.registry.owner? type with
  | none => rfl
  | some owner =>
    obtain ⟨plugin, builtin⟩ := owner
    cases builtin with
    | true => rfl
    | false => simp [Dict.put, hplugin]

theorem keys_pluginEntries (type : String) : (Dict.keys (w.pluginEntries type)).Sublist
    [w.target.naming.protocol.pluginName, w.target.naming.protocol.pluginVersion] := by
  unfold pluginEntries
  split
  · exact .refl _
  · exact List.nil_sublist _

mutual
theorem render_congr {v : Value} (h : ∀ c ∈ v.components, r.at c.id = r'.at c.id) :
    w.render l r v = w.render l r' v := by
  match v with
  | .data t => simp [render]
  | .component c => simp [render, h c (by simp)]
  | .property p => simp [render]
  | .list items =>
    rw [render, render, renderItems_congr (by simpa [Value.components] using h)]
  | .map entries =>
    rw [render, render, renderEntries_congr (by simpa [Value.components] using h)]
theorem renderItems_congr {items : List Value}
    (h : ∀ c ∈ Value.componentsOfList items, r.at c.id = r'.at c.id) :
    w.renderItems l r items = w.renderItems l r' items := by
  match items with
  | [] => rfl
  | v :: rest =>
    simp only [Value.componentsOfList, List.mem_append] at h
    rw [renderItems, renderItems, render_congr fun c hc => h c (.inl hc),
      renderItems_congr fun c hc => h c (.inr hc)]
theorem renderEntries_congr {entries : List (String × Value)}
    (h : ∀ c ∈ Value.componentsOfEntries entries, r.at c.id = r'.at c.id) :
    w.renderEntries l r entries = w.renderEntries l r' entries := by
  match entries with
  | [] => rfl
  | (key, v) :: rest =>
    simp only [Value.componentsOfEntries, List.mem_append] at h
    rw [renderEntries, renderEntries, render_congr fun c hc => h c (.inl hc),
      renderEntries_congr fun c hc => h c (.inr hc)]
end

theorem fieldEntries_congr {fields : Dict Value}
    (h : ∀ c ∈ heldComponents fields, r.at c.id = r'.at c.id) :
    w.fieldEntries l r fields = w.fieldEntries l r' fields := by
  refine List.map_congr_left fun f hf => ?_
  rw [render_congr fun c hc => h c (mem_heldComponents hf hc)]

theorem carried_congr {id : String} (h : ∀ y ∈ l.hosted id, r.at y = r'.at y) :
    w.carried l r id = w.carried l r' id := by
  have hentries : carriedEntries r (l.hosted id) = carriedEntries r' (l.hosted id) :=
    List.map_congr_left fun y hy => by rw [h y hy]
  rw [carried, carried, hentries]

theorem keys_baseOf (c : Component) : (Dict.keys (baseOf c)).Sublist Record.baseFields := by
  unfold baseOf descriptionEntry metadataEntry
  cases c.description <;> cases c.metadata.isEmpty <;>
    simp [Record.baseFields, Dict.keys]

theorem keys_carried (w : Writer) (l : Layout) (r : Records) (id : String) :
    (Dict.keys (w.carried l r id)).Sublist [w.target.naming.protocol.referencedComponents] := by
  unfold carried
  split <;> simp

theorem keys_header_sublist (w : Writer) (type : String) : (Dict.keys (w.header type)).Sublist
    [w.target.naming.protocol.componentType, w.target.naming.protocol.version,
      w.target.naming.protocol.pluginName, w.target.naming.protocol.pluginVersion] := by
  rw [header_eq, Dict.keys_cons]
  exact ((keys_pluginEntries type).cons _).cons_cons _

theorem keys_fieldEntries (fields : Dict Value) :
    Dict.keys (w.fieldEntries l r fields) = (Dict.keys fields).map w.target.naming.toDocument := by
  simp [fieldEntries, Dict.keys, List.map_map, Function.comp_def]

/-- The keys of a record are told apart, whichever fields of the kind it has. -/
theorem nodup_recordParts (naming : NamingMode) {names : List String}
    (hnames : (names.map naming.toDocument ++ naming.protocol.names ++ Record.baseFields).Nodup)
    {head base fields carried : List String}
    (hh : head.Sublist [naming.protocol.componentType, naming.protocol.version,
      naming.protocol.pluginName, naming.protocol.pluginVersion])
    (hb : base.Sublist Record.baseFields) (hf : fields.Sublist names)
    (hc : carried.Sublist [naming.protocol.referencedComponents]) :
    (head ++ base ++ fields.map naming.toDocument ++ carried).Nodup := by
  have hends : ([naming.protocol.componentType, naming.protocol.version,
      naming.protocol.pluginName, naming.protocol.pluginVersion] ++
      [naming.protocol.referencedComponents]).Sublist naming.protocol.names := by
    cases naming <;> decide
  have hnodup : (fields.map naming.toDocument ++ ([naming.protocol.componentType,
      naming.protocol.version, naming.protocol.pluginName, naming.protocol.pluginVersion] ++
      [naming.protocol.referencedComponents]) ++ base).Nodup :=
    (((hf.map _).append hends).append hb).nodup hnames
  refine (((hh.append (.refl base)).append (.refl _)).append hc).nodup (List.Perm.nodup ?_ hnodup)
  refine List.perm_iff_count.mpr fun x => ?_
  simp only [List.count_append]
  omega

end Writer
end AgentGraph
