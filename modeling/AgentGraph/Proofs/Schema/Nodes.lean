import AgentGraph.Property
import AgentGraph.Proofs.Plain
import AgentGraph.Proofs.Schema.Reading
/-!
# The nodes of a schema

A schema is a tree of nodes: itself and the schemas under its items, its named properties, its other
keys and its alternatives. Whatever tree a schema was read from, each of its nodes has a valid title, if
it has one at all, and no reserved key in its default, its names or its other keywords.
-/
namespace AgentGraph
namespace Schema

mutual
/-- The nodes of a schema, the schema itself first. -/
def nodes : Schema → List Schema
  | mk title description fallback type extra =>
    mk title description fallback type extra :: nodesOfType type
/-- The nodes below a schema of a type. -/
def nodesOfType : SchemaType → List Schema
  | .array (some items) => nodes items
  | .object properties additional => nodesOfProperties properties ++ nodesOfAdditional additional
  | .anyOf alternatives => nodesOfList alternatives
  | _ => []
/-- The nodes of the schema of the other keys. -/
def nodesOfAdditional : Additional → List Schema
  | .following s => nodes s
  | _ => []
/-- The nodes of the schemas of a list. -/
def nodesOfList : List Schema → List Schema
  | [] => []
  | s :: rest => nodes s ++ nodesOfList rest
/-- The nodes of named schemas. -/
def nodesOfProperties : List (String × Schema) → List Schema
  | [] => []
  | (_, s) :: rest => nodes s ++ nodesOfProperties rest
end

/-- The names of the properties of an object. -/
def propertyNames (s : Schema) : List String :=
  match s.type with
  | .object properties _ => Dict.keys properties
  | _ => []

/-- A node whose title may be one. -/
def WellTitled (s : Schema) : Prop := ∀ text, s.title = some text → isTitle text = true

/-- A node without reserved keys. -/
structure Clean (s : Schema) : Prop where
  fallback : ∀ t, s.fallback = some t → t.Unreserved
  names : ∀ name ∈ s.propertyNames, isReservedKey name = false
  extra : (Tree.map s.extra).Unreserved

/-- What every node of a schema is that was read from a tree. -/
structure Sound (s : Schema) : Prop where
  titled : s.WellTitled
  clean : s.Clean

theorem mem_nodesOfList {xs : List Schema} {n : Schema} :
    n ∈ nodesOfList xs ↔ ∃ x ∈ xs, n ∈ x.nodes := by
  induction xs with
  | nil => simp [nodesOfList]
  | cons x rest ih => simp [nodesOfList, ih]

theorem mem_nodesOfProperties {ps : Dict Schema} {n : Schema} :
    n ∈ nodesOfProperties ps ↔ ∃ x ∈ Dict.values ps, n ∈ x.nodes := by
  induction ps with
  | nil => simp [nodesOfProperties, Dict.values]
  | cons f rest ih =>
    obtain ⟨key, x⟩ := f
    rw [nodesOfProperties, List.mem_append, ih]
    simp [Dict.values]

theorem mem_nodesOfAdditional {a : Additional} {n : Schema} :
    n ∈ nodesOfAdditional a ↔ ∃ x ∈ a.inner, n ∈ x.nodes := by
  cases a <;> simp [nodesOfAdditional, Additional.inner]

/-- The nodes below a type are those of the schemas in it. -/
theorem mem_nodesOfType {type : SchemaType} {n : Schema} :
    n ∈ nodesOfType type ↔ ∃ s ∈ type.contents, n ∈ s.nodes := by
  cases type with
  | array items => cases items <;> simp [nodesOfType, SchemaType.contents]
  | object properties additional =>
    rw [nodesOfType, List.mem_append, mem_nodesOfProperties, mem_nodesOfAdditional]
    simp only [SchemaType.contents, List.mem_append, or_and_right, exists_or]
  | anyOf alternatives => exact mem_nodesOfList
  | _ => simp [nodesOfType, SchemaType.contents]

/-- A node is sound whose type was read, if its other entries are in order. -/
theorem sound_mk {title description : Option String} {fallback : Option Tree} {type : SchemaType}
    {extra : Dict Tree} (htitle : ∀ text, title = some text → isTitle text = true)
    (hfallback : ∀ t, fallback = some t → t.Unreserved) (hextra : (Tree.map extra).Unreserved)
    (htype : Arises (fun _ => True) (fun s => ∀ n ∈ s.nodes, n.Sound) type) :
    ∀ n ∈ (mk title description fallback type extra).nodes, n.Sound := by
  refine List.forall_mem_cons.mpr ⟨⟨htitle, hfallback, ?_, hextra⟩, fun n hn => ?_⟩
  · rw [propertyNames, Schema.type]
    cases type with
    | object properties additional => exact (htype.names properties additional rfl).1
    | _ => exact List.forall_mem_nil _
  · obtain ⟨s, hs, hns⟩ := mem_nodesOfType.mp hn
    exact htype.contents s hs n hns

/-- Every node of a schema that was read is sound. -/
theorem sound_ofTree {t : Tree} {s : Schema} (h : ofTree t = .ok s) : ∀ n ∈ s.nodes, n.Sound := by
  refine ofTree_induction (Q := fun s => ∀ n ∈ s.nodes, n.Sound)
    (fun type => sound_mk nofun nofun Tree.keysAll_empty)
    ⟨fun _ _ _ _ => trivial, fun _ _ _ _ _ => trivial⟩
    (fun d title description type _ _ htitle => sound_mk (readTitle_ok htitle) (fun u hu => ?_)
      (Tree.unreserved_stripEntries _)) trivial h
  obtain ⟨v, -, rfl⟩ := Option.map_eq_some_iff.mp hu
  exact Tree.unreserved_strip v

end Schema

/-- A property that was read has a title, and its schema is sound throughout. -/
structure Property.Sound (p : Property) : Prop where
  titled : p.schema.title ≠ none
  nodes : ∀ n ∈ p.schema.nodes, n.Sound

namespace Property

theorem sound_ofTree {t : Tree} {p : Property} (h : ofTree t = .ok p) : p.Sound := by
  obtain ⟨s, hs, h⟩ := bind_ok h
  unfold ofSchema at h
  simp only at h
  split at h
  · cases h
  · rename_i title htitle
    obtain ⟨_, -, h⟩ := bind_ok h
    obtain ⟨_, -, h⟩ := bind_ok h
    obtain rfl := Except.ok.inj h
    exact ⟨by simp [htitle], Schema.sound_ofTree hs⟩

theorem sound_ofTrees {ts : List Tree} {ps : List Property} (h : ofTrees ts = .ok ps) :
    ∀ p ∈ ps, p.Sound := by
  induction ts generalizing ps with
  | nil =>
    obtain rfl := Except.ok.inj h
    simp
  | cons t rest ih =>
    obtain ⟨p, hp, h⟩ := bind_ok h
    obtain ⟨qs, hqs, h⟩ := bind_ok h
    obtain rfl := Except.ok.inj h
    exact List.forall_mem_cons.mpr ⟨sound_ofTree hp, ih hqs⟩

theorem checkTitlesFrom_ok {list : String} {seen : List String} {ps : List Property} {u : Unit}
    (h : checkTitlesFrom list seen ps = .ok u) :
    (ps.map title).Nodup ∧ ∀ p ∈ ps, p.title ∉ seen := by
  induction ps generalizing seen with
  | nil => simp
  | cons p rest ih =>
    unfold checkTitlesFrom at h
    split at h
    · cases h
    · rename_i hnew
      obtain ⟨hnodup, hunseen⟩ := ih h
      refine ⟨List.nodup_cons.mpr ⟨fun hmem => ?_, hnodup⟩, ?_⟩
      · obtain ⟨q, hq, htitle⟩ := List.mem_map.mp hmem
        exact hunseen q hq (htitle ▸ List.mem_cons_self)
      · refine List.forall_mem_cons.mpr ⟨by simpa using hnew, fun q hq hseen => ?_⟩
        exact hunseen q hq (List.mem_cons_of_mem _ hseen)

end Property
end AgentGraph
