import AgentGraph.Proofs.Dict
import AgentGraph.Proofs.Run
import AgentGraph.Schema.Parser
/-!
# Reading schemas

What the reader finds under a keyword is what it makes of the tree that stands there, and a node is put
together from what its keywords give. So there is one induction for all that holds of schemas because
they were read (`ofTree_induction`): it need only be seen that a node passes if the schemas in its type do.
-/
namespace AgentGraph

/-- The schema that the keys have to follow which an object does not name. -/
def Additional.inner : Additional → List Schema
  | .following s => [s]
  | _ => []

/-- The schemas that stand in a type. -/
def SchemaType.contents : SchemaType → List Schema
  | .array (some items) => [items]
  | .object properties additional => Dict.values properties ++ additional.inner
  | .anyOf alternatives => alternatives
  | _ => []

namespace Schema
variable {d : Dict Tree}

/-! ## What is found under the keywords -/

theorem alternatives?_eq (d : Dict Tree) : alternatives? d = (Dict.get? d "anyOf").map fun t =>
    match t with
    | .list items => ofTrees items
    | _ => .error (.invalidSchema "anyOf must be a list") := by
  induction d with
  | nil => rfl
  | cons p rest ih =>
    obtain ⟨key, t⟩ := p
    unfold alternatives?
    by_cases hk : key = "anyOf"
    · simp only [Dict.get?, hk, if_true, Option.map_some]
      cases t <;> rfl
    · simp only [Dict.get?, hk, if_false, ih]

theorem items?_eq (d : Dict Tree) : items? d = (Dict.get? d "items").map ofTree := by
  induction d with
  | nil => rfl
  | cons p rest ih =>
    obtain ⟨key, t⟩ := p
    unfold items?
    by_cases hk : key = "items" <;> simp [Dict.get?, hk, ih]

theorem properties?_eq (d : Dict Tree) :
    properties? d = (Dict.get? d "properties").map fun t =>
      match t with
      | .map entries => ofEntries entries
      | _ => .error (.invalidSchema "properties must be a mapping") := by
  induction d with
  | nil => rfl
  | cons p rest ih =>
    obtain ⟨key, t⟩ := p
    unfold properties?
    by_cases hk : key = "properties"
    · simp only [Dict.get?, hk, if_true, Option.map_some]
      cases t <;> rfl
    · simp only [Dict.get?, hk, if_false, ih]

theorem additionalOf_eq (d : Dict Tree) :
    additionalOf d = match Dict.get? d "additionalProperties" with
      | none => .ok .unspecified
      | some (.bool b) => .ok (.allowed b)
      | some t => do return .following (← ofTree t) := by
  induction d with
  | nil => rfl
  | cons p rest ih =>
    obtain ⟨key, t⟩ := p
    unfold additionalOf
    by_cases hk : key = "additionalProperties"
    · simp only [Dict.get?, hk, if_true]
      cases t <;> rfl
    · simp only [Dict.get?, hk, if_false, ih]

/-- The type that the keywords of a node ask for. -/
def readType (d : Dict Tree) : Except PropertyError SchemaType :=
  match alternatives? d with
  | some alternatives => do return .anyOf (← alternatives)
  | none => readNamedType
      { items := items? d, properties := properties? d, additional := additionalOf d }
      (Dict.get? d "type")

/-- How a node that was read came about. -/
theorem ofTree_map_ok {s : Schema} (h : ofTree (.map d) = .ok s) : ∃ title description type,
    refusedCombinators.find? (Dict.has d) = none ∧ readTitle d = .ok title ∧
      readDescription d = .ok description ∧ readType d = .ok type ∧
      s = mk title description ((Dict.get? d "default").map Tree.strip) type (readExtra d) := by
  rw [ofTree] at h
  cases hrefused : refusedCombinators.find? (Dict.has d) with
  | some name =>
    simp only [hrefused] at h
    cases h
  | none =>
    simp only [hrefused] at h
    obtain ⟨title, htitle, h⟩ := bind_ok h
    obtain ⟨description, hdescription, h⟩ := bind_ok h
    refine ⟨title, description, ?_⟩
    unfold readType
    cases halternatives : alternatives? d with
    | some alternatives =>
      simp only [halternatives] at h
      obtain ⟨xs, rfl, h⟩ := bind_ok h
      exact ⟨_, rfl, htitle, hdescription, rfl, (Except.ok.inj h).symm⟩
    | none =>
      simp only [halternatives] at h
      obtain ⟨type, htype, h⟩ := bind_ok h
      exact ⟨type, rfl, htitle, hdescription, htype, (Except.ok.inj h).symm⟩

theorem readTitle_ok {entries : Dict Tree} {title : Option String}
    (h : readTitle entries = .ok title) : ∀ text, title = some text → isTitle text = true := by
  rintro text rfl
  unfold readTitle at h
  split at h
  · cases h
  · cases h
  · obtain ⟨u, hu, h⟩ := bind_ok h
    cases h
    unfold checkTitle at hu
    split at hu
    · assumption
    · cases hu
  · cases h

/-- Schemas that were read in order. -/
theorem ofTrees_ok {ts : List Tree} {xs : List Schema} (h : ofTrees ts = .ok xs) :
    ∀ s ∈ xs, ∃ t ∈ ts, ofTree t = .ok s := by
  induction ts generalizing xs with
  | nil =>
    rw [ofTrees] at h
    cases h
    simp
  | cons t rest ih =>
    rw [ofTrees] at h
    obtain ⟨s, hs, h⟩ := bind_ok h
    obtain ⟨ys, hys, h⟩ := bind_ok h
    cases h
    refine List.forall_mem_cons.mpr ⟨⟨t, List.mem_cons_self, hs⟩, fun y hy => ?_⟩
    obtain ⟨u, hu, hread⟩ := ih hys y hy
    exact ⟨u, List.mem_cons_of_mem _ hu, hread⟩

/-- Named schemas that were read in order: the names are keys that are not reserved. -/
theorem ofEntries_ok {ps : Dict Schema} (h : ofEntries d = .ok ps) :
    (Dict.keys ps).Sublist (Dict.keys d) ∧ (∀ key ∈ Dict.keys ps, isReservedKey key = false) ∧
      ∀ s ∈ Dict.values ps, ∃ key t, (key, t) ∈ d ∧ ofTree t = .ok s := by
  induction d generalizing ps with
  | nil =>
    rw [ofEntries] at h
    cases h
    simp [Dict.values]
  | cons p rest ih =>
    obtain ⟨key, t⟩ := p
    have hlater {qs : Dict Schema}
        (hqs : ∀ s ∈ Dict.values qs, ∃ key t, (key, t) ∈ rest ∧ ofTree t = .ok s) :
        ∀ s ∈ Dict.values qs, ∃ key' t', (key', t') ∈ (key, t) :: rest ∧ ofTree t' = .ok s := by
      intro s hs
      obtain ⟨key', t', hmem, hread⟩ := hqs s hs
      exact ⟨key', t', List.mem_cons_of_mem _ hmem, hread⟩
    rw [ofEntries] at h
    split at h
    · obtain ⟨hsub, hnames, hread⟩ := ih h
      exact ⟨hsub.cons _, hnames, hlater hread⟩
    · rename_i hkey
      obtain ⟨s, hs, h⟩ := bind_ok h
      obtain ⟨qs, hqs, h⟩ := bind_ok h
      cases h
      obtain ⟨hsub, hnames, hread⟩ := ih hqs
      refine ⟨hsub.cons_cons _, List.forall_mem_cons.mpr ⟨by simpa using hkey, hnames⟩, ?_⟩
      exact List.forall_mem_cons.mpr ⟨⟨key, t, List.mem_cons_self, hs⟩, hlater hread⟩

/-! ## The induction -/

/-- A test of trees that what stands in a tree passes with it. -/
structure Inherited (H : Tree → Prop) : Prop where
  item : ∀ ts t, H (.list ts) → t ∈ ts → H t
  entry : ∀ d key t, H (.map d) → (key, t) ∈ d → H t

/-- How a type comes about: its schemas pass one test, and the names of an object are keys of a mapping
that passes another, none of them reserved. -/
structure Arises (H : Tree → Prop) (Q : Schema → Prop) (type : SchemaType) : Prop where
  names : ∀ properties additional, type = .object properties additional →
    (∀ key ∈ Dict.keys properties, isReservedKey key = false) ∧
      ∃ e, H (.map e) ∧ (Dict.keys properties).Sublist (Dict.keys e)
  contents : ∀ s ∈ type.contents, Q s

/-- What was found below a node is in order, where it could be read. -/
structure Parts.Arise (H : Tree → Prop) (Q : Schema → Prop) (parts : Parts) : Prop where
  items : ∀ s, parts.items = some (.ok s) → Q s
  properties : ∀ properties, parts.properties = some (.ok properties) →
    (∀ key ∈ Dict.keys properties, isReservedKey key = false) ∧
      (∃ e, H (.map e) ∧ (Dict.keys properties).Sublist (Dict.keys e)) ∧
      ∀ s ∈ Dict.values properties, Q s
  additional : ∀ additional, parts.additional = .ok additional → ∀ s ∈ additional.inner, Q s

section Induction
variable {H : Tree → Prop} {Q : Schema → Prop} {parts : Parts} {type : SchemaType}

theorem Arises.of_empty (hobject : ∀ properties additional, type ≠ .object properties additional)
    (h : type.contents = []) : Arises H Q type := by
  refine ⟨fun properties additional heq => absurd heq (hobject properties additional), ?_⟩
  rw [h]
  exact List.forall_mem_nil Q

theorem arises_ofTypeName (hd : H (.map d)) (hparts : parts.Arise H Q) {name : String}
    (h : ofTypeName parts name = .ok type) : Arises H Q type := by
  unfold ofTypeName at h
  split at h
  case h_6 =>
    split at h
    · cases h
      exact .of_empty nofun rfl
    · rename_i items hitems
      obtain ⟨s, rfl, h⟩ := bind_ok h
      cases h
      exact ⟨nofun, List.forall_mem_singleton.mpr (hparts.items s hitems)⟩
  case h_7 =>
    have hobject (ps : Dict Schema) (hnames : ∀ key ∈ Dict.keys ps, isReservedKey key = false)
        (hkeys : ∃ e, H (.map e) ∧ (Dict.keys ps).Sublist (Dict.keys e))
        (hps : ∀ s ∈ Dict.values ps, Q s)
        (h : (do return .object ps (← parts.additional)) = Except.ok type) : Arises H Q type := by
      obtain ⟨a, ha, h⟩ := bind_ok h
      cases h
      refine ⟨?_, List.forall_mem_append.mpr ⟨hps, hparts.additional a ha⟩⟩
      rintro _ _ ⟨⟩
      exact ⟨hnames, hkeys⟩
    simp only at h
    split at h
    · exact hobject [] (List.forall_mem_nil _) ⟨d, hd, List.nil_sublist _⟩ (List.forall_mem_nil _) h
    · rename_i properties hproperties
      obtain ⟨ps, rfl, h⟩ := bind_ok h
      obtain ⟨hnames, hkeys, hps⟩ := hparts.properties ps hproperties
      exact hobject ps hnames hkeys hps h
  case h_8 => cases h
  all_goals
    cases h
    exact .of_empty nofun rfl

variable (hplain : ∀ type, Arises H Q type → Q (ofType type))
include hplain

theorem forall_ofTypeNames (hd : H (.map d)) (hparts : parts.Arise H Q) {names : List Tree}
    {xs : List Schema} (h : ofTypeNames parts names = .ok xs) : ∀ s ∈ xs, Q s := by
  induction names generalizing xs with
  | nil =>
    cases h
    exact List.forall_mem_nil Q
  | cons t rest ih =>
    cases t with
    | string name =>
      obtain ⟨type, htype, h⟩ := bind_ok h
      obtain ⟨ys, hys, h⟩ := bind_ok h
      cases h
      exact List.forall_mem_cons.mpr ⟨hplain _ (arises_ofTypeName hd hparts htype), ih hys⟩
    | _ => cases h

theorem arises_readNamedType (hd : H (.map d)) (hparts : parts.Arise H Q) {named : Option Tree}
    (h : readNamedType parts named = .ok type) : Arises H Q type := by
  unfold readNamedType at h
  split at h
  · cases h
    exact .of_empty nofun rfl
  · exact arises_ofTypeName hd hparts h
  · obtain ⟨xs, hxs, h⟩ := bind_ok h
    cases h
    exact ⟨nofun, forall_ofTypeNames hplain hd hparts hxs⟩
  · cases h

/-- The type of a node, if what is read from the trees below it is in order. -/
theorem arises_readType (hH : Inherited H) (hd : H (.map d))
    (hbelow : ∀ t s, sizeOf t < sizeOf d → H t → ofTree t = .ok s → Q s)
    (h : readType d = .ok type) : Arises H Q type := by
  have hget {key : String} {t : Tree} (ht : Dict.get? d key = some t) :
      H t ∧ sizeOf t < sizeOf d :=
    ⟨hH.entry d key t hd (Dict.mem_of_get? ht), Dict.sizeOf_lt_of_mem (Dict.mem_of_get? ht)⟩
  unfold readType at h
  rw [alternatives?_eq, items?_eq, properties?_eq] at h
  cases hany : Dict.get? d "anyOf" with
  | some t =>
    obtain ⟨ht, hlt⟩ := hget hany
    simp only [hany, Option.map_some] at h
    obtain ⟨xs, hxs, h⟩ := bind_ok h
    cases h
    refine ⟨nofun, fun s hs => ?_⟩
    cases t with
    | list ts =>
      obtain ⟨u, hu, hread⟩ := ofTrees_ok hxs s hs
      have hsize := List.sizeOf_lt_of_mem hu
      rw [Tree.list.sizeOf_spec] at hlt
      exact hbelow u s (by omega) (hH.item ts u ht hu) hread
    | _ => cases hxs
  | none =>
    simp only [hany, Option.map_none] at h
    refine arises_readNamedType hplain hd ⟨fun s hs => ?_, fun ps hps => ?_, fun a ha s hs => ?_⟩ h
    · obtain ⟨t, ht, hread⟩ := Option.map_eq_some_iff.mp hs
      exact hbelow t s (hget ht).2 (hget ht).1 hread
    · obtain ⟨t, ht, hread⟩ := Option.map_eq_some_iff.mp hps
      obtain ⟨hproperties, hlt⟩ := hget ht
      cases t with
      | map e =>
        obtain ⟨hsub, hnames, hvalues⟩ := ofEntries_ok hread
        refine ⟨hnames, ⟨e, hproperties, hsub⟩, fun s hs => ?_⟩
        obtain ⟨key, u, hu, hread⟩ := hvalues s hs
        have hsize := Dict.sizeOf_lt_of_mem hu
        rw [Tree.map.sizeOf_spec] at hlt
        exact hbelow u s (by omega) (hH.entry e key u hproperties hu) hread
      | _ => cases hread
    · rw [additionalOf_eq] at ha
      split at ha
      · cases ha
        cases hs
      · cases ha
        cases hs
      · rename_i t _ ht
        obtain ⟨u, hu, ha⟩ := bind_ok ha
        cases ha
        obtain rfl := List.mem_singleton.mp hs
        exact hbelow t s (hget ht).2 (hget ht).1 hu

/-- Whatever is read passes a test, if a node passes it whose type came about from what passes. -/
theorem ofTree_induction (hH : Inherited H)
    (hnode : ∀ d title description type, H (.map d) →
      refusedCombinators.find? (Dict.has d) = none → readTitle d = .ok title → Arises H Q type →
      Q (mk title description ((Dict.get? d "default").map Tree.strip) type (readExtra d)))
    {t : Tree} {s : Schema} (ht : H t) (h : ofTree t = .ok s) : Q s := by
  match t with
  | .map d =>
    obtain ⟨title, description, type, hrefused, htitle, -, htype, rfl⟩ := ofTree_map_ok h
    have hbelow (u : Tree) (v : Schema) (hlt : sizeOf u < sizeOf d) (hu : H u)
        (hread : ofTree u = .ok v) : Q v := by
      have hsize : sizeOf u < sizeOf (Tree.map d) := by
        rw [Tree.map.sizeOf_spec]
        omega
      exact ofTree_induction hH hnode hu hread
    exact hnode d title description type ht hrefused htitle
      (arises_readType hplain hH ht hbelow htype)
  | .null | .bool _ | .number _ | .string _ | .list _ =>
    rw [ofTree] at h
    · cases h
    · nofun
termination_by sizeOf t

end Induction
end Schema
end AgentGraph
