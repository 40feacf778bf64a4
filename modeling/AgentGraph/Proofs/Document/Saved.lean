import AgentGraph.Proofs.Document.Written
import AgentGraph.Proofs.Listing
/-!
# Every record is written once

In a document and its sidecar taken together every component has one record. It stands in the sidecar
if the component is listed or lies below a listed one. A component that is listed or used more than once
is referred to, and each reference has one entry to go to: within the sidecar for those of the
sidecar, in the document or on top of the sidecar for those of the document.
-/
namespace AgentGraph
open List (Forall₂)

/-- The id of a record. -/
def recordId? (record : Dict Tree) : Option String :=
  (Dict.get? record "id").bind Tree.string?

namespace Saved

/-- The entries on top of the sidecar. -/
def sidecarEntries (saved : Saved) (naming : NamingMode) : Dict Tree :=
  match saved.sidecar with
  | some (.map top) => naming.definitions top
  | _ => []

/-- The records in the document. -/
def documentRecords (saved : Saved) (naming : NamingMode) : List (Dict Tree) :=
  naming.records saved.document

/-- The records in the sidecar. -/
def sidecarRecords (saved : Saved) (naming : NamingMode) : List (Dict Tree) :=
  (saved.sidecarEntries naming).flatMap fun p => naming.records p.2

/-- The records in the document and the sidecar. -/
def allRecords (saved : Saved) (naming : NamingMode) : List (Dict Tree) :=
  saved.documentRecords naming ++ saved.sidecarRecords naming

end Saved

namespace Writer
variable {w : Writer} {root c d : Component} {l : Layout} {r : Records} {x y : String}
  {record : Dict Tree} {listed : List (String × Option String)} {exportSidecar : Bool}
  {saved : Saved}

/-- What stands where a component is used: a reference if it is listed or used more than once, and its
record otherwise. -/
def UsedAs (w : Writer) (root : Component) (listed : List (String × Option String))
    (c : Component) (t : Tree) : Prop :=
  if c.id ∈ listed.map (·.1) ∨ 2 ≤ w.occurrences root c.id then
    t = w.referenceTo (referenceName listed c.id)
  else ∃ record, t = .map record ∧ recordId? record = some c.id ∧
    w.target.naming.reference? t = none

/-- What stands where a value is written: opaque data without what reserved keys lead to, a component
as it is used, a property with its schema, a list with what stands for each of its items. -/
inductive WrittenAs (w : Writer) (root : Component) (listed : List (String × Option String)) :
    Value → Tree → Prop
  | data {t u : Tree} : Tree.LeftOf t u → WrittenAs w root listed (.data t) u
  | component {c : Component} {t : Tree} : w.UsedAs root listed c t →
      WrittenAs w root listed (.component c) t
  | property (p : Property) : WrittenAs w root listed (.property p) p.toTree
  | list {items : List Value} {ts : List Tree} : Forall₂ (WrittenAs w root listed) items ts →
      WrittenAs w root listed (.list items) (.list ts)

/-- The record of a component in full: the texts that it is known by, its description and metadata if
it has any, and under each of its fields that is seen the value there. The fields are those of a
component that is equal to it, for equal components share one record. -/
structure IsRecordOf (w : Writer) (root : Component) (listed : List (String × Option String))
    (c d : Component) (record : Dict Tree) : Prop where
  type : Dict.get? record w.target.naming.protocol.componentType = some (.string c.componentType)
  id : recordId? record = some c.id
  name : Dict.get? record "name" = some (.string c.name)
  description : Dict.get? record "description" = c.description.map .string
  metadata : Option.Rel Tree.LeftOf (if c.metadata.isEmpty then none else some (.map c.metadata))
    (Dict.get? record "metadata")
  fields : ∀ field ∈ d.kind.names, Option.Rel (w.WrittenAs root listed)
    (Dict.get? (w.shown d) field) (Dict.get? record (w.target.naming.toDocument field))
  same : c.same d = true

/-- Records and references of a saved graph are where they should be. -/
structure WrittenOnce (w : Writer) (root : Component) (listed : List (String × Option String))
    (saved : Saved) : Prop where
  once : ∀ c, Component.Reaches Component.children root c →
    ((saved.allRecords w.target.naming).filterMap recordId?).count c.id = 1
  sidecar : ∀ c, Component.Reaches Component.children root c →
    (c.id ∈ (saved.sidecarRecords w.target.naming).filterMap recordId? ↔
      ∃ a d, a.id ∈ listed.map (·.1) ∧ Component.Reaches Component.children root a ∧
        Component.Reaches Component.children a d ∧ d.id = c.id)
  full : ∀ record ∈ saved.allRecords w.target.naming,
    ∃ c d, Component.Reaches Component.children root c ∧
      Component.Reaches Component.children root d ∧ w.IsRecordOf root listed c d record ∧
      Forall₂ (w.UsedAs root listed) d.children (w.target.naming.uses record)
  entries : ∀ p ∈ (saved.allRecords w.target.naming).flatMap w.target.naming.definitions ++
      saved.sidecarEntries w.target.naming,
    ∃ c record, Component.Reaches Component.children root c ∧ p.1 = referenceName listed c.id ∧
      p.2 = .map record ∧ recordId? record = some c.id
  closed : ∀ name ∈ w.target.naming.references (saved.sidecarRecords w.target.naming),
    name ∈ Dict.keys (saved.sidecarEntries w.target.naming ++
      (saved.sidecarRecords w.target.naming).flatMap w.target.naming.definitions)
  defined : ∀ name ∈ w.target.naming.references (saved.documentRecords w.target.naming),
    (Dict.keys ((saved.documentRecords w.target.naming).flatMap w.target.naming.definitions ++
      saved.sidecarEntries w.target.naming)).count name = 1

mutual
/-- A value without mappings stands in a record in full if its components are used as they should be. -/
theorem writtenAs_render {v : Value} (hfree : v.MapFree)
    (h : ∀ c ∈ v.components, w.UsedAs root listed c (w.written l r c.id)) :
    w.WrittenAs root listed v (w.render l r v) := by
  match v with
  | .data t => exact .data (Tree.leftOf_strip t)
  | .component c => exact .component (h c (by simp))
  | .property p => exact .property p
  | .list items => exact .list (writtenAs_renderItems hfree (by simpa [Value.components] using h))
  | .map _ => exact hfree.elim
theorem writtenAs_renderItems {items : List Value} (hfree : mapFreeItems items)
    (h : ∀ c ∈ Value.componentsOfList items, w.UsedAs root listed c (w.written l r c.id)) :
    Forall₂ (w.WrittenAs root listed) items (w.renderItems l r items) := by
  match items with
  | [] => exact .nil
  | v :: rest =>
    simp only [Value.componentsOfList, List.mem_append] at h
    exact .cons (writtenAs_render hfree.1 fun c hc => h c (.inl hc))
      (writtenAs_renderItems hfree.2 fun c hc => h c (.inr hc))
end

theorem Stands.recordId (hs : w.Stands root l r x record) : recordId? record = some x := by
  rw [recordId?, hs.id]
  rfl

namespace Outcome
variable {G : w.FullGraph root} (O : Outcome G listed exportSidecar l r saved)
include O

theorem document_eq : ∃ record, saved.document = .map record ∧
    w.Stands root l r root.id record := by
  obtain ⟨record, hdocument, hlaid, -⟩ := O.document_laid
  exact ⟨record, hdocument, hlaid.stands G O.planned⟩

theorem sidecarEntries_eq (hexport : exportSidecar = true) :
    saved.sidecarEntries w.target.naming = topEntries l r := by
  have hne : w.target.naming.protocol.version ≠
      w.target.naming.protocol.referencedComponents := by
    cases w.target.naming <;> decide
  rw [Saved.sidecarEntries, O.sidecar, hexport]
  cases haliases : l.aliases with
  | nil => simp [topEntries, haliases]
  | cons p rest => simp [NamingMode.definitions, Dict.get?, releaseEntry, hne]

theorem sidecar_listing (hexport : exportSidecar = true) :
    (saved.sidecarRecords w.target.naming).filterMap recordId? = l.aliases.keys.flatMap fun y =>
      (w.target.naming.records (.map (r.at y))).filterMap recordId? := by
  rw [Saved.sidecarRecords, O.sidecarEntries_eq hexport, topEntries, List.flatMap_map,
    List.filterMap_flatMap, Dict.keys, List.flatMap_map]

/-- What is in the sidecar is listed or lies below what is listed. -/
theorem sided_iff : Sided G.regular listed x ↔ ∃ a d, a.id ∈ listed.map (·.1) ∧
    Component.Reaches Component.children root a ∧ Component.Reaches Component.children a d ∧
      d.id = x := by
  constructor
  · rintro ⟨a, ha, hax⟩
    obtain ⟨c, hc, rfl⟩ := G.regular.exists_component (O.planned.below a ha).reaches
    obtain ⟨d, hd, rfl⟩ := (G.regular.reaches_iff hc).mp hax
    have hcr := G.reaches_iff.mp hc
    exact ⟨c, d, forcedName?_ne_none_iff.mp ha, hcr, (G.reaches_from hcr).mp hd, rfl⟩
  · rintro ⟨c, d, ha, hc, hd, rfl⟩
    refine ⟨c.id, forcedName?_ne_none_iff.mpr ha, ?_⟩
    exact (G.regular.reaches_iff (G.reaches_iff.mpr hc)).mpr ⟨d, (G.reaches_from hc).mpr hd, rfl⟩

theorem shared_iff (hx : G.regular.dag.Below root.id x) :
    G.regular.dag.Shared root.id x ↔ 2 ≤ w.occurrences root x := by
  refine ⟨G.regular.occurrences_of_shared, fun htwo => ?_⟩
  obtain ⟨p, -, hplaced⟩ := O.planned.place hx
  cases hplaced with
  | inline ho =>
    rw [G.regular.occurrences_of_onlyUser ho] at htwo
    omega
  | referenced _ hs => exact hs

theorem usedAs (hx : G.regular.dag.Below root.id c.id) :
    w.UsedAs root listed c (w.written l r c.id) := by
  have hiff := O.planned.reference_iff hx
  rw [O.shared_iff hx, forcedName?_ne_none_iff] at hiff
  unfold UsedAs written useOf
  cases href : l.reference? c.id with
  | some name =>
    rw [if_pos (hiff.mp (by rw [href]; exact Option.some_ne_none _)), O.planned.reference_name href]
  | none =>
    have hs := O.stands hx.reaches
    rw [if_neg fun h => hiff.mpr h href]
    refine ⟨_, rfl, hs.recordId, ?_⟩
    rw [NamingMode.reference?, Tree.field?, hs.reference_none]

/-- Where a component is seen, it is used as it should be. -/
theorem usedAs_child (hd : Component.Reaches w.children root d) (hc : c ∈ w.children d) :
    w.UsedAs root listed c (w.written l r c.id) :=
  O.usedAs ((G.regular.reaches_root hd).trans_below
    ⟨c.id, (G.regular.mem_kidsOf hd).mpr ⟨c, hc, rfl⟩, .refl _⟩)

theorem entry_of_hosted {p : String × Tree} (hs : w.Stands root l r x record)
    (hp : p ∈ w.target.naming.definitions record) :
    ∃ c record, Component.Reaches Component.children root c ∧ p.1 = referenceName listed c.id ∧
      p.2 = .map record ∧ recordId? record = some c.id := by
  rw [hs.definitions, carriedEntries] at hp
  obtain ⟨y, hy, rfl⟩ := List.mem_map.mp hp
  obtain ⟨hreach, -, hname⟩ := O.hosted_name hy
  obtain ⟨c, hc, rfl⟩ := G.regular.exists_component hreach
  exact ⟨c, _, G.reaches_iff.mp hc, hname.symm, rfl, (O.stands hreach).recordId⟩

theorem entry_of_aliased {p : String × Tree} (hp : p ∈ topEntries l r) :
    ∃ c record, Component.Reaches Component.children root c ∧ p.1 = referenceName listed c.id ∧
      p.2 = .map record ∧ recordId? record = some c.id := by
  obtain ⟨⟨y, name⟩, hy, rfl⟩ := List.mem_map.mp hp
  obtain ⟨hreach, -, hname⟩ := O.aliased_name hy
  obtain ⟨c, hc, rfl⟩ := G.regular.exists_component hreach
  exact ⟨c, _, G.reaches_iff.mp hc, hname.symm, rfl, (O.stands hreach).recordId⟩

variable (B : w.BuiltinGraph root)
include B

/-- The ids of the records that the walk meets from the record of an id. -/
theorem listing_eq (hx : G.regular.dag.Reaches root.id x) :
    (w.target.naming.records (.map (r.at x))).filterMap recordId? =
      x :: (l.sub x).flatMap fun y =>
        (w.target.naming.records (.map (r.at y))).filterMap recordId? := by
  have hs := O.stands hx
  rw [records_eq B O.planned hs, List.filterMap_cons_some hs.recordId, List.filterMap_flatMap]

theorem document_listing : (saved.documentRecords w.target.naming).filterMap recordId? =
    (w.target.naming.records (.map (r.at root.id))).filterMap recordId? := by
  obtain ⟨record, hdocument, hs⟩ := O.document_eq
  rw [O.listing_eq B (.refl _), Saved.documentRecords, hdocument, records_eq B O.planned hs,
    List.filterMap_cons_some hs.recordId, List.filterMap_flatMap]

/-- Every record that the walk meets is one of the graph. -/
theorem stands_of_mem (hx : G.regular.dag.Reaches root.id x)
    (h : record ∈ w.target.naming.records (.map (r.at x))) :
    ∃ y, G.regular.dag.Reaches x y ∧ w.Stands root l r y record := by
  induction hn : G.regular.dag.rank x using Nat.strongRecOn generalizing x with
  | _ n ih =>
    subst hn
    rw [records_eq B O.planned (O.stands hx), List.mem_cons, List.mem_flatMap] at h
    rcases h with rfl | ⟨y, hy, h⟩
    · exact ⟨x, .refl x, O.stands hx⟩
    · have hbelow := O.planned.below_of_sub hx hy
      obtain ⟨z, hz, hs⟩ := ih _ hbelow.rank_lt (hx.trans hbelow.reaches) h rfl
      exact ⟨z, hbelow.reaches.trans hz, hs⟩

theorem stands_of_mem_document (h : record ∈ saved.documentRecords w.target.naming) :
    ∃ x, G.regular.dag.Reaches root.id x ∧ w.Stands root l r x record := by
  obtain ⟨top, hdocument, hs⟩ := O.document_eq
  rw [Saved.documentRecords, hdocument, records_eq B O.planned hs, List.mem_cons,
    List.mem_flatMap] at h
  rcases h with rfl | ⟨y, hy, h⟩
  · exact ⟨root.id, .refl _, hs⟩
  · have hbelow := O.planned.below_of_sub (.refl _) hy
    obtain ⟨z, hz, hs⟩ := O.stands_of_mem B hbelow.reaches h
    exact ⟨z, hbelow.reaches.trans hz, hs⟩

theorem stands_of_mem_sidecar (hexport : exportSidecar = true)
    (h : record ∈ saved.sidecarRecords w.target.naming) :
    ∃ x, G.regular.dag.Reaches root.id x ∧ w.Stands root l r x record := by
  rw [Saved.sidecarRecords, O.sidecarEntries_eq hexport, topEntries, List.flatMap_map,
    List.mem_flatMap] at h
  obtain ⟨p, hp, h⟩ := h
  have ht : l.aliases.get? p.1 ≠ none := by
    rw [Dict.get?_of_mem O.planned.nodup hp]
    exact Option.some_ne_none _
  have hroot := (O.planned.below_of_aliased ht).reaches
  obtain ⟨z, hz, hs⟩ := O.stands_of_mem B hroot h
  exact ⟨z, hroot.trans hz, hs⟩

/-- What is found in a record of the graph makes it full. -/
theorem isRecordOf (hc : Component.Reaches w.children root c)
    (hd : Component.Reaches w.children root d) (hid : c.id = d.id)
    (h : w.RecordOf l r c d record) : w.IsRecordOf root listed c d record where
  type := h.type
  id := by
    rw [recordId?, h.id]
    rfl
  name := h.name
  description := h.description
  metadata := by
    rw [h.metadata]
    cases c.metadata.isEmpty with
    | true => exact .none
    | false => exact .some (Tree.leftOf_strip _)
  fields field hf := by
    rw [h.field field hf]
    cases hshown : Dict.get? (w.shown d) field with
    | none => exact .none
    | some v =>
      have hmem := Dict.mem_of_get? hshown
      have hfree := Kind.mapFree_fields (B.builtin d (G.reaches_iff.mp hd)) _ (mem_shown hmem)
      exact .some (writtenAs_render hfree fun e he =>
        O.usedAs_child hd (mem_heldComponents hmem he))
  same := G.regular.coherent c d hc hd hid

theorem full (hs : w.Stands root l r x record) :
    ∃ c d, Component.Reaches Component.children root c ∧
      Component.Reaches Component.children root d ∧ w.IsRecordOf root listed c d record ∧
      Forall₂ (w.UsedAs root listed) d.children (w.target.naming.uses record) := by
  obtain ⟨c, d, rfl, hc, hd, h⟩ := hs
  obtain ⟨hdid, hdreach, -⟩ := O.planned.surveyed.known.found _ _ _ hd
  have hrecord := O.isRecordOf B hc hdreach hdid.symm h
  have hdr := G.reaches_iff.mp hdreach
  refine ⟨c, d, G.reaches_iff.mp hc, hdr, hrecord, ?_⟩
  rw [h.uses B hdreach (Component.same_type hrecord.same), G.children_eq hdr,
    List.forall₂_map_right_iff, List.forall₂_same]
  exact fun e he => O.usedAs_child hdreach (G.children_eq hdr ▸ he)

end Outcome
end Writer
end AgentGraph
