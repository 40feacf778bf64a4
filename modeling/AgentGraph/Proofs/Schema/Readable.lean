import AgentGraph.Proofs.Plain
import AgentGraph.Proofs.Schema.Reading
/-!
# Schemas that were read

A schema that was read from a proper tree has valid titles, no reserved key, and among the keywords it
carries along no key twice and none that is read or refused.
-/
namespace AgentGraph

namespace Schema

mutual
/-- The schema is as schemas are when they were read from trees. -/
def Readable : Schema → Prop
  | mk title _ fallback type extra =>
    (∀ text, title = some text → isTitle text = true) ∧
      (∀ t, fallback = some t → t.Unreserved) ∧ (Dict.keys extra).Nodup ∧
      (∀ key ∈ Dict.keys extra, key ∉ knownKeywords ∧ key ∉ refusedCombinators) ∧
      (Tree.map extra).Unreserved ∧ readableType type
/-- The schemas of a type are readable. -/
def readableType : SchemaType → Prop
  | .array (some items) => items.Readable
  | .object properties additional =>
    (Dict.keys properties).Nodup ∧ readableProperties properties ∧ readableAdditional additional
  | .anyOf alternatives => readableList alternatives
  | _ => True
/-- The schema of the other keys is readable. -/
def readableAdditional : Additional → Prop
  | .following s => s.Readable
  | _ => True
/-- The schemas of a list are readable. -/
def readableList : List Schema → Prop
  | [] => True
  | s :: rest => s.Readable ∧ readableList rest
/-- The schemas of a mapping are readable, and no name is reserved. -/
def readableProperties : List (String × Schema) → Prop
  | [] => True
  | (key, s) :: rest => isReservedKey key = false ∧ s.Readable ∧ readableProperties rest
end

theorem readableProperties_iff {d : Dict Schema} :
    readableProperties d ↔ ∀ p ∈ d, isReservedKey p.1 = false ∧ p.2.Readable := by
  induction d with
  | nil => simp [readableProperties]
  | cons p rest ih => simp [readableProperties, ih, and_assoc]

theorem readableList_iff {xs : List Schema} : readableList xs ↔ ∀ s ∈ xs, s.Readable := by
  induction xs with
  | nil => simp [readableList]
  | cons s rest ih => simp [readableList, ih]

mutual
/-- A schema that was read is written without reserved keys. -/
theorem Readable.unreserved {s : Schema} (h : s.Readable) : s.toTree.Unreserved := by
  match s with
  | mk title description fallback type extra =>
    obtain ⟨-, hfallback, -, -, hextra, htype⟩ := h
    have hoptional (key : String) (t : Option Tree) (hkey : isReservedKey key = false)
        (ht : ∀ u, t = some u → u.Unreserved) : (Tree.map (optionalEntry key t)).Unreserved := by
      cases t with
      | none => exact Tree.keysAll_empty
      | some u => exact ⟨hkey, ht u rfl, trivial⟩
    have htext (text : Option String) : ∀ u, text.map Tree.string = some u → u.Unreserved := by
      rintro u hu
      obtain ⟨s, -, rfl⟩ := Option.map_eq_some_iff.mp hu
      trivial
    rw [toTree]
    have htitle := hoptional "title" _ (by decide) (htext title)
    have hdescription := hoptional "description" _ (by decide) (htext description)
    have hdefault := hoptional "default" _ (by decide) hfallback
    exact (((htitle.append hdescription).append hdefault).append
      (unreserved_typeEntries htype)).merge hextra
theorem unreserved_typeEntries {type : SchemaType} (h : readableType type) :
    (Tree.map (typeEntries type)).Unreserved := by
  have hentry (key : String) (t : Tree) (hkey : isReservedKey key = false) (ht : t.Unreserved) :
      (Tree.map [(key, t)]).Unreserved := ⟨hkey, ht, trivial⟩
  have htype (name : String) : (Tree.map [("type", .string name)]).Unreserved :=
    hentry "type" _ (by decide) trivial
  match type with
  | .any => trivial
  | .null | .boolean | .integer | .number | .string | .array none => exact htype _
  | .array (some items) =>
    have hitems : items.toTree.Unreserved := Readable.unreserved h
    exact (htype "array").append (hentry "items" _ (by decide) hitems)
  | .object properties additional =>
    obtain ⟨-, hproperties, hadditional⟩ := h
    have hentries := unreserved_propertyEntries hproperties
    refine ((htype "object").append ?_).append ?_
    · split
      · exact Tree.keysAll_empty
      · exact hentry "properties" _ (by decide) hentries
    · match additional with
      | .unspecified => exact Tree.keysAll_empty
      | .allowed b => exact hentry "additionalProperties" _ (by decide) trivial
      | .following s =>
        exact hentry "additionalProperties" _ (by decide) (Readable.unreserved hadditional)
  | .anyOf alternatives => exact hentry "anyOf" _ (by decide) (unreserved_toTrees h)
theorem unreserved_toTrees {xs : List Schema} (h : readableList xs) :
    Tree.keysAllItems (fun key => isReservedKey key = false) (toTrees xs) := by
  match xs with
  | [] => trivial
  | s :: rest => exact ⟨Readable.unreserved h.1, unreserved_toTrees h.2⟩
theorem unreserved_propertyEntries {d : List (String × Schema)} (h : readableProperties d) :
    Tree.keysAllEntries (fun key => isReservedKey key = false) (propertyEntries d) := by
  match d with
  | [] => trivial
  | (key, s) :: rest => exact ⟨h.1, Readable.unreserved h.2.1, unreserved_propertyEntries h.2.2⟩
end

theorem readable_ofType {type : SchemaType} (h : readableType type) : (ofType type).Readable :=
  ⟨by simp, by simp, by simp, by simp, Tree.keysAll_map.mpr (by simp), h⟩

theorem readExtra_ok {entries : Dict Tree} (hd : (Dict.keys entries).Nodup)
    (hrefused : refusedCombinators.find? (Dict.has entries) = none) :
    (Dict.keys (readExtra entries)).Nodup ∧
      ∀ key ∈ Dict.keys (readExtra entries), key ∉ knownKeywords ∧ key ∉ refusedCombinators := by
  have hsub := Tree.keys_stripEntries (entries.filter fun pair => !knownKeywords.contains pair.1)
  have hfilter : (Dict.keys (entries.filter fun pair => !knownKeywords.contains pair.1)).Sublist
      (Dict.keys entries) := List.filter_sublist.map _
  refine ⟨(hsub.trans hfilter).nodup hd, fun key hkey => ⟨fun hknown => ?_, fun hno => ?_⟩⟩
  · obtain ⟨p, hp, rfl⟩ := List.mem_map.mp (hsub.subset hkey)
    have := (List.mem_filter.mp hp).2
    simp [hknown] at this
  · have hhas := List.find?_eq_none.mp hrefused key hno
    exact hhas (Dict.has_iff.mpr (hfilter.subset (hsub.subset hkey)))

/-- A type is readable if the schemas in it are and the names of an object are in order. -/
theorem readableType_iff {type : SchemaType} : readableType type ↔
    (∀ properties additional, type = .object properties additional →
      (Dict.keys properties).Nodup ∧ ∀ key ∈ Dict.keys properties, isReservedKey key = false) ∧
      ∀ s ∈ type.contents, s.Readable := by
  cases type with
  | array items => cases items <;> simp [readableType, SchemaType.contents]
  | object properties additional =>
    have hadditional : readableAdditional additional ↔ ∀ s ∈ additional.inner, s.Readable := by
      cases additional <;> simp [readableAdditional, Additional.inner]
    rw [readableType, readableProperties_iff, hadditional, SchemaType.contents,
      List.forall_mem_append]
    constructor
    · rintro ⟨hnodup, hproperties, hadditional⟩
      refine ⟨?_, ?_, hadditional⟩
      · rintro _ _ ⟨⟩
        exact ⟨hnodup, List.forall_mem_map.mpr fun p hp => (hproperties p hp).1⟩
      · exact List.forall_mem_map.mpr fun p hp => (hproperties p hp).2
    · rintro ⟨hobject, hproperties, hadditional⟩
      obtain ⟨hnodup, hnames⟩ := hobject properties additional rfl
      refine ⟨hnodup, fun p hp => ⟨?_, ?_⟩, hadditional⟩
      · exact hnames p.1 (List.mem_map_of_mem hp)
      · exact hproperties p.2 (List.mem_map_of_mem hp)
  | anyOf alternatives => simp [readableType, readableList_iff, SchemaType.contents]
  | _ => simp [readableType, SchemaType.contents]

theorem readableType_of_arises {type : SchemaType} (h : Arises Tree.Proper Readable type) :
    readableType type := by
  refine readableType_iff.mpr ⟨fun properties additional htype => ?_, h.contents⟩
  obtain ⟨hnames, e, he, hsub⟩ := h.names properties additional htype
  exact ⟨hsub.nodup he.1, hnames⟩

theorem inherited_proper : Inherited Tree.Proper where
  item _ _ h ht := Tree.proper_list.mp h _ ht
  entry _ _ _ h ht := (Tree.proper_map.mp h).2 _ ht

/-- What is read from a proper tree is readable. -/
theorem readable_ofTree {t : Tree} (ht : t.Proper) {s : Schema} (h : ofTree t = .ok s) :
    s.Readable := by
  refine ofTree_induction (fun type htype => readable_ofType (readableType_of_arises htype))
    inherited_proper (fun d title description type hd hrefused htitle htype => ?_) ht h
  obtain ⟨hnodup, hextra⟩ := readExtra_ok hd.1 hrefused
  refine ⟨readTitle_ok htitle, fun u hu => ?_, hnodup, hextra, Tree.unreserved_stripEntries _,
    readableType_of_arises htype⟩
  obtain ⟨v, -, rfl⟩ := Option.map_eq_some_iff.mp hu
  exact Tree.unreserved_strip v

end Schema
end AgentGraph
