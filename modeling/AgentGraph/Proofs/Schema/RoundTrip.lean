import AgentGraph.Proofs.Schema.Readable
/-!
# Reading back a schema that was written

A readable schema is read back from its tree as it was, and so is every schema that was read from a tree. The
keywords of a written schema come in one order, and what is carried along is behind them.
-/
namespace AgentGraph

namespace Schema
variable {d : Dict Tree}

/-- The type depends on five keywords only. -/
theorem readType_congr {e : Dict Tree} (h : ∀ key ∈ ["type", "anyOf", "items", "properties",
    "additionalProperties"], Dict.get? d key = Dict.get? e key) : readType d = readType e := by
  simp only [List.forall_mem_cons] at h
  obtain ⟨htype, hany, hitems, hproperties, hadditional, -⟩ := h
  simp only [readType, alternatives?_eq, items?_eq, properties?_eq, additionalOf_eq, htype, hany,
    hitems, hproperties, hadditional]

theorem ofTree_map {type : SchemaType} {title description : Option String}
    (hrefused : refusedCombinators.find? (Dict.has d) = none)
    (htitle : readTitle d = .ok title) (hdescription : readDescription d = .ok description)
    (htype : readType d = .ok type) :
    ofTree (.map d) =
      .ok (mk title description ((Dict.get? d "default").map Tree.strip) type (readExtra d)) := by
  rw [ofTree]
  simp only [hrefused, htitle, hdescription]
  unfold readType at htype
  cases halternatives : alternatives? d with
  | some alternatives =>
    simp only [halternatives] at htype ⊢
    obtain ⟨xs, rfl, htype⟩ := bind_ok htype
    cases htype
    rfl
  | none =>
    simp only [halternatives] at htype ⊢
    rw [htype]
    rfl

/-- The keywords of a node that are read, in order. -/
def keywords (title description : Option String) (fallback : Option Tree) (type : SchemaType) :
    Dict Tree :=
  optionalEntry "title" (title.map .string) ++
    optionalEntry "description" (description.map .string) ++
    optionalEntry "default" fallback ++ typeEntries type

theorem keys_optionalEntry (key : String) (t : Option Tree) :
    (Dict.keys (optionalEntry key t)).Sublist [key] := by
  cases t <;> simp [optionalEntry]

theorem keys_typeEntries (type : SchemaType) : (Dict.keys (typeEntries type)).Sublist
    ["type", "anyOf", "items", "properties", "additionalProperties"] := by
  cases type with
  | array items =>
    cases items <;> simp only [typeEntries, Dict.keys_cons, Dict.keys_nil] <;> decide
  | object properties additional =>
    simp only [typeEntries]
    split <;> cases additional <;>
      simp only [additionalEntries, Dict.keys_append, Dict.keys_cons, Dict.keys_nil] <;> decide
  | _ =>
    simp only [typeEntries, Dict.keys_cons, Dict.keys_nil]
    decide

theorem keys_keywords (title description : Option String) (fallback : Option Tree)
    (type : SchemaType) :
    (Dict.keys (keywords title description fallback type)).Sublist knownKeywords := by
  simp only [keywords, Dict.keys_append]
  exact (((keys_optionalEntry _ _).append (keys_optionalEntry _ _)).append
    (keys_optionalEntry _ _)).append (keys_typeEntries type)

theorem get?_optionalEntry (key other : String) (t : Option Tree) :
    Dict.get? (optionalEntry key t) other = if key = other then t else none := by
  cases t <;> simp [optionalEntry, Dict.get?]

theorem get?_typeEntries_none {type : SchemaType} {key : String}
    (h : key ∉ ["type", "anyOf", "items", "properties", "additionalProperties"]) :
    Dict.get? (typeEntries type) key = none :=
  Dict.get?_eq_none_iff.mpr fun hmem => h ((keys_typeEntries type).subset hmem)

/-- What is found in a written node. -/
theorem get?_keywords (title description : Option String) (fallback : Option Tree)
    (type : SchemaType) :
    Dict.get? (keywords title description fallback type) "title" = title.map .string ∧
    Dict.get? (keywords title description fallback type) "description" =
      description.map .string ∧
    Dict.get? (keywords title description fallback type) "default" = fallback ∧
    ∀ key ∈ ["type", "anyOf", "items", "properties", "additionalProperties"],
      Dict.get? (keywords title description fallback type) key =
        Dict.get? (typeEntries type) key := by
  simp only [keywords, Dict.get?_append, get?_optionalEntry]
  refine ⟨?_, ?_, ?_, ?_⟩
  · rw [get?_typeEntries_none (by decide)]
    simp
  · rw [get?_typeEntries_none (by decide)]
    simp
  · rw [get?_typeEntries_none (by decide)]
    simp
  · simp

variable {title description : Option String} {fallback : Option Tree} {type : SchemaType}
  {extra : Dict Tree}

theorem toTree_eq (h : (mk title description fallback type extra).Readable) :
    toTree (mk title description fallback type extra) =
      .map (keywords title description fallback type ++ extra) := by
  obtain ⟨-, -, hnodup, hextra, -, -⟩ := h
  have hknown := keys_keywords title description fallback type
  rw [toTree]
  refine congrArg Tree.map (Dict.merge_of_disjoint (List.nodup_append.mpr
    ⟨hknown.nodup (by decide), hnodup, ?_⟩))
  rintro a ha b hb rfl
  exact (hextra a hb).1 (hknown.subset ha)

section
variable (h : (mk title description fallback type extra).Readable)
include h

/-- What is carried along hides no keyword. -/
theorem get?_written {key : String} (hkey : key ∈ knownKeywords) :
    Dict.get? (keywords title description fallback type ++ extra) key =
      Dict.get? (keywords title description fallback type) key := by
  obtain ⟨-, -, -, hextra, -, -⟩ := h
  have hnone : Dict.get? extra key = none :=
    Dict.get?_eq_none_iff.mpr fun hmem => (hextra key hmem).1 hkey
  rw [Dict.get?_append, hnone, Option.or_none]

theorem find?_refused_written : refusedCombinators.find?
    (Dict.has (keywords title description fallback type ++ extra)) = none := by
  obtain ⟨-, -, -, hextra, -, -⟩ := h
  refine List.find?_eq_none.mpr fun key hkey hhas => ?_
  rw [Dict.has_iff, Dict.keys_append, List.mem_append] at hhas
  rcases hhas with hmem | hmem
  · have hdisjoint : ∀ key ∈ refusedCombinators, key ∉ knownKeywords := by decide
    exact hdisjoint key hkey ((keys_keywords title description fallback type).subset hmem)
  · exact (hextra key hmem).2 hkey

theorem readTitle_written :
    readTitle (keywords title description fallback type ++ extra) = .ok title := by
  rw [readTitle, get?_written h (by decide), (get?_keywords title description fallback type).1]
  cases title with
  | none => rfl
  | some text =>
    simp only [Option.map_some, checkTitle, h.1 text rfl, if_true]
    rfl

theorem readDescription_written :
    readDescription (keywords title description fallback type ++ extra) = .ok description := by
  rw [readDescription, get?_written h (by decide),
    (get?_keywords title description fallback type).2.1]
  cases description <;> rfl

theorem get?_default_written :
    (Dict.get? (keywords title description fallback type ++ extra) "default").map Tree.strip =
      fallback := by
  have hfallback := h.2.1
  rw [get?_written h (by decide), (get?_keywords title description fallback type).2.2.1]
  cases fallback with
  | none => rfl
  | some t => rw [Option.map_some, (hfallback t rfl).strip_eq]

theorem readType_written :
    readType (keywords title description fallback type ++ extra) = readType (typeEntries type) := by
  refine readType_congr fun key hkey => ?_
  have hkeyword : key ∈ knownKeywords := by
    revert key
    decide
  rw [get?_written h hkeyword, (get?_keywords title description fallback type).2.2.2 key hkey]

theorem readExtra_written :
    readExtra (keywords title description fallback type ++ extra) = extra := by
  obtain ⟨-, -, -, hextra, hunreserved, -⟩ := h
  have hleft : (keywords title description fallback type).filter
      (fun pair => !knownKeywords.contains pair.1) = [] := by
    refine List.filter_eq_nil_iff.mpr fun p hp => ?_
    simpa using (keys_keywords title description fallback type).subset (Dict.mem_keys_of_mem hp)
  have hright : extra.filter (fun pair => !knownKeywords.contains pair.1) = extra := by
    refine List.filter_eq_self.mpr fun p hp => ?_
    simpa using (hextra p.1 (Dict.mem_keys_of_mem hp)).1
  rw [readExtra, List.filter_append, hleft, hright, List.nil_append]
  exact Tree.stripEntries_eq hunreserved

/-- A node is read back if its type is. -/
theorem ofTree_toTree_of_type (htype : readType (typeEntries type) = .ok type) :
    ofTree (toTree (mk title description fallback type extra)) =
      .ok (mk title description fallback type extra) := by
  have hread : readType (keywords title description fallback type ++ extra) = .ok type :=
    (readType_written h).trans htype
  rw [toTree_eq h, ofTree_map (find?_refused_written h) (readTitle_written h)
    (readDescription_written h) hread, get?_default_written h, readExtra_written h]

end

theorem get?_additionalEntries {key : String} (h : "additionalProperties" ≠ key)
    (a : Additional) : Dict.get? (additionalEntries a) key = none := by
  cases a <;> simp [additionalEntries, Dict.get?, h]

/-- The parts of an object are read back from where they stand. -/
theorem readType_object {properties : Dict Schema} {additional : Additional}
    (hproperties : ofEntries (propertyEntries properties) = .ok properties)
    (hadditional : additionalOf (additionalEntries additional) = .ok additional) :
    readType (typeEntries (.object properties additional)) = .ok (.object properties additional) := by
  have hany : alternatives? (typeEntries (.object properties additional)) = none := by
    rw [alternatives?_eq, typeEntries, Dict.get?_append, Dict.get?_append,
      get?_additionalEntries (by decide)]
    cases properties <;> rfl
  have hadd : additionalOf (typeEntries (.object properties additional)) = .ok additional := by
    have hget : Dict.get? (typeEntries (.object properties additional)) "additionalProperties" =
        Dict.get? (additionalEntries additional) "additionalProperties" := by
      rw [typeEntries, Dict.get?_append, Dict.get?_append]
      cases properties <;> simp [Dict.get?]
    rw [additionalOf_eq, hget, ← additionalOf_eq, hadditional]
  have hprops : properties? (typeEntries (.object properties additional)) =
      if properties.isEmpty then none else some (.ok properties) := by
    rw [properties?_eq, typeEntries, Dict.get?_append, Dict.get?_append,
      get?_additionalEntries (by decide)]
    split <;> simp [Dict.get?, hproperties]
  have htype : Dict.get? (typeEntries (.object properties additional)) "type" =
      some (.string "object") := by
    simp [typeEntries, Dict.get?]
  simp only [readType, hany, htype, readNamedType, ofTypeName, hprops, hadd]
  cases properties <;> rfl

mutual
/-- A readable schema is read back as it was. -/
theorem ofTree_toTree {s : Schema} (h : s.Readable) : ofTree (toTree s) = .ok s := by
  match s with
  | mk title description fallback type extra =>
    exact ofTree_toTree_of_type h (readType_typeEntries h.2.2.2.2.2)
theorem readType_typeEntries {type : SchemaType} (h : readableType type) :
    readType (typeEntries type) = .ok type := by
  match type with
  | .any | .null | .boolean | .integer | .number | .string | .array none =>
    simp [typeEntries, readType, alternatives?_eq, items?_eq, Dict.get?, readNamedType, ofTypeName]
  | .array (some items) =>
    simp only [typeEntries, readType, alternatives?_eq, items?_eq, Dict.get?, readNamedType,
      ofTypeName]
    simp [ofTree_toTree h]
  | .object properties additional =>
    exact readType_object (ofEntries_propertyEntries h.2.1) (additionalOf_additionalEntries h.2.2)
  | .anyOf alternatives =>
    simp [typeEntries, readType, alternatives?_eq, Dict.get?, ofTrees_toTrees h]
theorem additionalOf_additionalEntries {a : Additional} (h : readableAdditional a) :
    additionalOf (additionalEntries a) = .ok a := by
  match a with
  | .unspecified => rfl
  | .allowed b => rfl
  | .following s =>
    have hread := ofTree_toTree (s := s) h
    obtain ⟨title, description, fallback, type, extra⟩ := s
    rw [toTree] at hread
    rw [additionalEntries, additionalOf_eq, toTree]
    simp only [Dict.get?, if_true, hread]
    rfl
theorem ofTrees_toTrees {xs : List Schema} (h : readableList xs) : ofTrees (toTrees xs) = .ok xs := by
  match xs with
  | [] => rfl
  | s :: rest =>
    rw [toTrees, ofTrees, ofTree_toTree h.1, ofTrees_toTrees h.2]
    rfl
theorem ofEntries_propertyEntries {ps : List (String × Schema)} (h : readableProperties ps) :
    ofEntries (propertyEntries ps) = .ok ps := by
  match ps with
  | [] => rfl
  | (key, s) :: rest =>
    rw [propertyEntries, ofEntries, h.1, ofTree_toTree h.2.1, ofEntries_propertyEntries h.2.2]
    rfl
end

/-- A schema that was read survives writing and reading again, and what is written holds no reserved key. That
no mapping of the tree repeats a key is so of every mapping built by `put`. -/
theorem ofTree_toTree_of_ofTree {t : Tree} (ht : t.Proper) {s : Schema} (h : ofTree t = .ok s) :
    ofTree (toTree s) = .ok s ∧ (toTree s).Unreserved ∧
      (ofTree (toTree s)).map toTree = .ok (toTree s) := by
  have hreadable : s.Readable := readable_ofTree ht h
  have hback : ofTree (toTree s) = .ok s := ofTree_toTree hreadable
  refine ⟨hback, hreadable.unreserved, ?_⟩
  rw [hback]
  rfl

/-- A list of type names beside parts that some of the names ask for, null as title and as default, an empty
mapping of properties, a node without a type, and reserved keys at several depths. -/
theorem ofTree_toTree_of_ofTree_batch :
    let t : Tree := .map [
      ("title", .null),
      ("enum", .list [.map [("prototype", .null), ("k", .null)]]),
      ("default", .null),
      ("__proto__", .string "x"),
      ("type", .list [.string "array", .string "object", .string "null"]),
      ("additionalProperties", .map [("type", .string "string"), ("anyOf", .list [.map [],
        .map [("additionalProperties", .bool false), ("type", .string "object"),
          ("properties", .map [("constructor", .null), ("b", .map [("title", .string "b"),
            ("default", .map [("constructor", .bool true), ("c", .null)])])])]])]),
      ("items", .map [("minimum", .number (.int 1)), ("type", .string "integer")]),
      ("properties", .map [])]
    let b : Schema := .mk (some "b") none (some (.map [("c", .null)])) .any []
    let other : Schema := ofType (.anyOf [any, ofType (.object [("b", b)] (.allowed false))])
    let least : Schema := .mk none none none .integer [("minimum", .number (.int 1))]
    let s : Schema := .mk none none (some .null)
      (.anyOf [ofType (.array (some least)), ofType (.object [] (.following other)), ofType .null])
      [("enum", .list [.map [("k", .null)]])]
    t.Proper ∧ ofTree t = .ok s ∧ ofTree (toTree s) = .ok s ∧ (toTree s).Unreserved ∧
      (ofTree (toTree s)).map toTree = .ok (toTree s) := by
  intro t b other least s
  have ht : t.Proper := by
    simp [t, Tree.Proper, Tree.properTrees, Tree.properTreeEntries, Dict.keys]
  have h : ofTree t = .ok s := rfl
  exact ⟨ht, h, ofTree_toTree_of_ofTree ht h⟩

end Schema

namespace Property
variable {p : Property}

/-- The property was read from the tree of a schema, in which no mapping repeats a key. -/
def FromTree (p : Property) : Prop := ∃ t : Tree, t.Proper ∧ ofTree t = .ok p

theorem ofSchema_ok {s : Schema} (h : ofSchema s = .ok p) : p.schema = s := by
  unfold ofSchema at h
  split at h
  · cases h
  · obtain ⟨_, -, h₁⟩ := bind_ok h
    obtain ⟨_, -, h₂⟩ := bind_ok h₁
    cases h₂
    rfl

theorem FromTree.readable (h : p.FromTree) : p.schema.Readable := by
  obtain ⟨t, ht, h⟩ := h
  obtain ⟨s, hs, h⟩ := bind_ok h
  exact ofSchema_ok h ▸ Schema.readable_ofTree ht hs

/-- A property that was read from a tree is read back from its own tree. -/
theorem FromTree.ofTree_toTree (h : p.FromTree) : ofTree p.toTree = .ok p := by
  have hreadable := h.readable
  obtain ⟨t, ht, h⟩ := h
  obtain ⟨s, hs, h⟩ := bind_ok h
  obtain rfl := ofSchema_ok h
  rw [ofTree, toTree, Schema.ofTree_toTree hreadable]
  exact h

theorem ofTrees_toTrees {ps : List Property} (h : ∀ p ∈ ps, p.FromTree) :
    ofTrees (ps.map toTree) = .ok ps := by
  induction ps with
  | nil => rfl
  | cons p rest ih =>
    obtain ⟨hp, hrest⟩ := List.forall_mem_cons.mp h
    rw [List.map_cons, ofTrees, hp.ofTree_toTree, ih hrest]
    rfl

end Property
end AgentGraph
