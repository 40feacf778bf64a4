import AgentGraph.Proofs.Record.Run
import AgentGraph.Proofs.Record.Stamp
/-!
# Looking things up in records

Whoever reads a record looks its entries up by key. What is found is the same in the record of a
component and in the root record, which has a release besides.
-/
namespace AgentGraph

namespace NamingMode

/-- The keys of the protocol are none of the base fields. -/
theorem protocol_not_base (naming : NamingMode) {key : String} (h : key ∈ naming.protocol.names) :
    key ∉ Record.baseFields := by
  revert key
  cases naming <;> decide

/-- References and the records for others have keys of their own. -/
theorem referenced_mem_names (naming : NamingMode) :
    naming.protocol.componentRef ∈ naming.protocol.names ∧
      naming.protocol.referencedComponents ∈ naming.protocol.names ∧
      naming.protocol.componentRef ≠ naming.protocol.referencedComponents := by
  cases naming <;> decide

end NamingMode

namespace Writer.InFull
variable {w : Writer} {d : Component} {field key : String} (h : w.InFull d)
include h

theorem nodup_spelled : (d.kind.names.map w.target.naming.toDocument).Nodup :=
  (List.nodup_append.mp (List.nodup_append.mp h.apart).1).1

/-- The spelling of a field is no key of the protocol. -/
theorem spelled_not_protocol (hf : field ∈ d.kind.names) :
    w.target.naming.toDocument field ∉ w.target.naming.protocol.names := fun hmem =>
  (List.nodup_append.mp (List.nodup_append.mp h.apart).1).2.2 _ (List.mem_map_of_mem hf) _ hmem rfl

/-- The spelling of a field is no base field. -/
theorem spelled_not_base (hf : field ∈ d.kind.names) :
    w.target.naming.toDocument field ∉ Record.baseFields := fun hmem =>
  (List.nodup_append.mp h.apart).2.2 _ (List.mem_append_left _ (List.mem_map_of_mem hf)) _ hmem rfl

/-- Two fields are spelled apart. -/
theorem spelled_inj {other : String} (hf : field ∈ d.kind.names) (ho : other ∈ d.kind.names)
    (heq : w.target.naming.toDocument field = w.target.naming.toDocument other) : field = other :=
  List.inj_on_of_nodup_map h.nodup_spelled hf ho heq

end Writer.InFull

namespace Writer
variable {w : Writer} {root c d : Component} {l : Layout} {r : Records} {field key : String}

/-- What is found in the record of a component: the base entries are those of one component of its id,
the fields those of another. -/
structure RecordOf (w : Writer) (l : Layout) (r : Records) (c d : Component)
    (record : Dict Tree) : Prop where
  type : Dict.get? record w.target.naming.protocol.componentType = some (.string c.componentType)
  id : Dict.get? record "id" = some (.string c.id)
  name : Dict.get? record "name" = some (.string c.name)
  description : Dict.get? record "description" = c.description.map .string
  metadata : Dict.get? record "metadata" =
    if c.metadata.isEmpty then none else some (Tree.map c.metadata).strip
  reference : Dict.get? record w.target.naming.protocol.componentRef = none
  field : ∀ field ∈ d.kind.names,
    Dict.get? record (w.target.naming.toDocument field) =
      (Dict.get? (w.shown d) field).map (w.render l r)
  carried : Dict.get? record w.target.naming.protocol.referencedComponents =
    if (l.hosted c.id).isEmpty then none else some (.map (carriedEntries r (l.hosted c.id)))

/-! ## The parts of a record -/

theorem get?_baseOf (c : Component) :
    Dict.get? (baseOf c) "id" = some (.string c.id) ∧
    Dict.get? (baseOf c) "name" = some (.string c.name) ∧
    Dict.get? (baseOf c) "description" = c.description.map .string ∧
    Dict.get? (baseOf c) "metadata" =
      if c.metadata.isEmpty then none else some (Tree.map c.metadata).strip := by
  unfold baseOf descriptionEntry metadataEntry
  cases c.description <;> cases c.metadata.isEmpty <;> simp [Dict.get?]

/-- A field that is shown is found under its spelling. -/
theorem get?_fieldEntries (hd : w.InFull d) (hf : field ∈ d.kind.names) :
    Dict.get? (w.fieldEntries l r (w.shown d)) (w.target.naming.toDocument field) =
      (Dict.get? (w.shown d) field).map (w.render l r) := by
  have hnodup : (Dict.keys (w.fieldEntries l r (w.shown d))).Nodup := by
    rw [keys_fieldEntries]
    exact ((w.keys_shown d).map _).nodup hd.nodup_spelled
  cases hshown : Dict.get? (w.shown d) field with
  | some v => exact Dict.get?_of_mem hnodup (List.mem_map_of_mem (Dict.mem_of_get? hshown))
  | none =>
    refine Dict.get?_eq_none_iff.mpr fun hmem => ?_
    rw [keys_fieldEntries] at hmem
    obtain ⟨other, hother, hspelled⟩ := List.mem_map.mp hmem
    obtain rfl := hd.spelled_inj (mem_keys_shown hother) hf hspelled
    exact Dict.get?_eq_none_iff.mp hshown hother

/-- No field is found under a key that all records have in common. -/
theorem get?_fieldEntries_eq_none (hd : w.InFull d)
    (hkey : key ∈ w.target.naming.protocol.names ∨ key ∈ Record.baseFields) :
    Dict.get? (w.fieldEntries l r (w.shown d)) key = none := by
  refine Dict.get?_eq_none_iff.mpr fun hmem => ?_
  rw [keys_fieldEntries] at hmem
  obtain ⟨field, hfield, rfl⟩ := List.mem_map.mp hmem
  rcases hkey with hkey | hkey
  · exact hd.spelled_not_protocol (mem_keys_shown hfield) hkey
  · exact hd.spelled_not_base (mem_keys_shown hfield) hkey

theorem get?_carried (id : String) :
    Dict.get? (w.carried l r id) w.target.naming.protocol.referencedComponents =
      if (l.hosted id).isEmpty then none else some (.map (carriedEntries r (l.hosted id))) := by
  unfold carried
  split <;> simp [Dict.get?]

theorem get?_carried_of_ne (id : String)
    (hkey : key ≠ w.target.naming.protocol.referencedComponents) :
    Dict.get? (w.carried l r id) key = none :=
  Dict.get?_eq_none_iff.mpr fun hmem =>
    hkey (List.mem_singleton.mp ((keys_carried w l r id).subset hmem))

/-- What comes in front of the fields of a record, in whatever order: the header, the base entries,
and in the root record the release. -/
def IsFront (w : Writer) (c : Component) (front : Dict Tree) : Prop :=
  ∃ extra, (extra = [] ∨ extra = [w.releaseEntry]) ∧
    front.Perm (w.header c.componentType ++ extra ++ baseOf c)

theorem isFront_fullRecord (c : Component) : w.IsFront c (w.header c.componentType ++ baseOf c) :=
  ⟨[], .inl rfl, by simp⟩

namespace IsFront
variable {front : Dict Tree} (h : w.IsFront c front)
include h

theorem mem_keys {key : String} (hkey : key ∈ front.keys) :
    key = w.target.naming.protocol.componentType ∨ key = w.target.naming.protocol.version ∨
      key = w.target.naming.protocol.pluginName ∨ key = w.target.naming.protocol.pluginVersion ∨
      key ∈ (baseOf c).keys := by
  obtain ⟨extra, hextra, hperm⟩ := h
  have hmem := (hperm.map Prod.fst).mem_iff.mp hkey
  rw [List.map_append, List.map_append, List.mem_append, List.mem_append, header_eq] at hmem
  rcases hmem with (hmem | hmem) | hmem
  · rcases List.mem_cons.mp hmem with hmem | hmem
    · exact .inl hmem
    · rcases List.mem_cons.mp ((keys_pluginEntries _).subset hmem) with hmem | hmem
      · exact .inr (.inr (.inl hmem))
      · exact .inr (.inr (.inr (.inl (List.mem_singleton.mp hmem))))
  · rcases hextra with rfl | rfl
    · cases hmem
    · exact .inr (.inl (List.mem_singleton.mp hmem))
  · exact .inr (.inr (.inr (.inr hmem)))

theorem mem_names {key : String} (hkey : key ∈ front.keys) (hno : key ∉ Record.baseFields) :
    key ∈ w.target.naming.protocol.names ∧ key ≠ w.target.naming.protocol.componentRef ∧
      key ≠ w.target.naming.protocol.referencedComponents := by
  have hends : ∀ naming : NamingMode, ∀ key ∈ [naming.protocol.componentType,
      naming.protocol.version, naming.protocol.pluginName, naming.protocol.pluginVersion],
      key ∈ naming.protocol.names ∧ key ≠ naming.protocol.componentRef ∧
        key ≠ naming.protocol.referencedComponents := by
    intro naming
    cases naming <;> decide
  refine hends _ key ?_
  rcases h.mem_keys hkey with rfl | rfl | rfl | rfl | hbase
  · simp
  · simp
  · simp
  · simp
  · exact absurd ((keys_baseOf c).subset hbase) hno

theorem nodup (hd : w.InFull d) : (Dict.keys
    (front ++ w.fieldEntries l r (w.shown d) ++ w.carried l r c.id)).Nodup := by
  obtain ⟨extra, hextra, hperm⟩ := h
  have hhead : (w.target.naming.protocol.componentType :: (Dict.keys extra ++
      Dict.keys (w.pluginEntries c.componentType))).Sublist
      [w.target.naming.protocol.componentType, w.target.naming.protocol.version,
        w.target.naming.protocol.pluginName, w.target.naming.protocol.pluginVersion] := by
    have hversion : (Dict.keys extra).Sublist [w.target.naming.protocol.version] := by
      rcases hextra with rfl | rfl
      · exact List.nil_sublist _
      · exact .refl _
    exact .cons_cons _ (hversion.append (keys_pluginEntries _))
  refine List.Perm.nodup ?_ (nodup_recordParts w.target.naming hd.apart hhead (keys_baseOf c)
    (w.keys_shown d) (keys_carried w l r c.id))
  rw [Dict.keys_append, Dict.keys_append, keys_fieldEntries]
  refine (List.Perm.append_right _ (List.Perm.append_right _ ?_))
  refine List.Perm.trans ?_ (hperm.map Prod.fst).symm
  rw [List.map_append, List.map_append, header_eq]
  exact (List.perm_append_comm.cons _).append_right _

theorem get?_type (hnodup : front.keys.Nodup) :
    Dict.get? front w.target.naming.protocol.componentType = some (.string c.componentType) := by
  obtain ⟨extra, -, hperm⟩ := h
  refine Dict.get?_of_mem hnodup (hperm.mem_iff.mpr ?_)
  rw [header_eq]
  exact List.mem_cons_self

/-- Under a base field there is what the component has there. -/
theorem get?_base (hnodup : front.keys.Nodup) (hkey : key ∈ Record.baseFields) :
    Dict.get? front key = Dict.get? (baseOf c) key := by
  cases hbase : Dict.get? (baseOf c) key with
  | some t =>
    obtain ⟨extra, -, hperm⟩ := h
    have hmem := List.mem_append_right (w.header c.componentType ++ extra) (Dict.mem_of_get? hbase)
    exact Dict.get?_of_mem hnodup (hperm.mem_iff.mpr hmem)
  | none =>
    refine Dict.get?_eq_none_iff.mpr fun hmem => ?_
    have hno : key ∉ w.target.naming.protocol.names :=
      fun hname => w.target.naming.protocol_not_base hname hkey
    rcases h.mem_keys hmem with rfl | rfl | rfl | rfl | hmem
    · exact hno (by simp [Protocol.names])
    · exact hno (by simp [Protocol.names])
    · exact hno (by simp [Protocol.names])
    · exact hno (by simp [Protocol.names])
    · exact Dict.get?_eq_none_iff.mp hbase hmem

/-- Any record made of these parts says what it should. -/
theorem recordOf (hd : w.InFull d) : w.RecordOf l r c d
    (front ++ w.fieldEntries l r (w.shown d) ++ w.carried l r c.id) := by
  have hnodup : front.keys.Nodup := by
    have hall := h.nodup (l := l) (r := r) hd
    rw [Dict.keys_append, Dict.keys_append] at hall
    exact hall.of_append_left.of_append_left
  obtain ⟨href, hreferenced, hapart⟩ := w.target.naming.referenced_mem_names
  have hbase (key : String) (hkey : key ∈ Record.baseFields) :
      Dict.get? (front ++ w.fieldEntries l r (w.shown d) ++ w.carried l r c.id) key =
        Dict.get? (baseOf c) key := by
    have hne : key ≠ w.target.naming.protocol.referencedComponents :=
      fun heq => w.target.naming.protocol_not_base hreferenced (heq ▸ hkey)
    rw [Dict.get?_append, Dict.get?_append, h.get?_base hnodup hkey,
      get?_fieldEntries_eq_none hd (.inr hkey), get?_carried_of_ne _ hne, Option.or_none,
      Option.or_none]
  obtain ⟨hid, hname, hdescription, hmetadata⟩ := get?_baseOf c
  refine ⟨?_, ?_, ?_, ?_, ?_, ?_, fun field hf => ?_, ?_⟩
  · rw [Dict.get?_append, Dict.get?_append, h.get?_type hnodup]
    rfl
  · rw [hbase _ (by decide), hid]
  · rw [hbase _ (by decide), hname]
  · rw [hbase _ (by decide), hdescription]
  · rw [hbase _ (by decide), hmetadata]
  · have hfront : Dict.get? front w.target.naming.protocol.componentRef = none :=
      Dict.get?_eq_none_iff.mpr fun hmem =>
        (h.mem_names hmem (w.target.naming.protocol_not_base href)).2.1 rfl
    rw [Dict.get?_append, Dict.get?_append, hfront, get?_fieldEntries_eq_none hd (.inl href),
      get?_carried_of_ne _ hapart]
    rfl
  · have hfront : Dict.get? front (w.target.naming.toDocument field) = none :=
      Dict.get?_eq_none_iff.mpr fun hmem =>
        hd.spelled_not_protocol hf (h.mem_names hmem (hd.spelled_not_base hf)).1
    have hne : w.target.naming.toDocument field ≠ w.target.naming.protocol.referencedComponents :=
      fun heq => hd.spelled_not_protocol hf (heq ▸ hreferenced)
    rw [Dict.get?_append, Dict.get?_append, hfront, get?_fieldEntries hd hf,
      get?_carried_of_ne _ hne, Option.none_or, Option.or_none]
  · have hfront : Dict.get? front w.target.naming.protocol.referencedComponents = none :=
      Dict.get?_eq_none_iff.mpr fun hmem =>
        (h.mem_names hmem (w.target.naming.protocol_not_base hreferenced)).2.2 rfl
    rw [Dict.get?_append, Dict.get?_append, hfront,
      get?_fieldEntries_eq_none hd (.inl hreferenced), get?_carried]
    rfl

end IsFront
end Writer
end AgentGraph
