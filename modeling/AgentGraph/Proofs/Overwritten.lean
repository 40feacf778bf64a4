import AgentGraph.Proofs.Inert
import AgentGraph.Proofs.Record.Dumped
import AgentGraph.Proofs.Unreserved
/-!
# Entries in each other's place

Nobody checks the names of the fields of an extension. Its record has the keys of all records and those
of its plugin, then one entry for each visible field and the records for others, if and only if the
names are spelled apart from each other and from the other keys. Otherwise an entry takes the place of
an earlier one, and the save succeeds nonetheless.
-/
namespace AgentGraph
open List (Forall₂)

namespace Writer
variable {w : Writer} {S : Component → Prop} {l : Layout} {c d e : Component}
  {record fields : Dict Tree} {name version x : String} {types declared : List String}

/-- The stamp adds the release to a record, unless an entry stands in its place. -/
theorem stampRoot_perm (hnodup : record.keys.Nodup) :
    (w.stampRoot record).Perm (Dict.merge [w.releaseEntry] record) := by
  have hstamped : (Dict.keys (w.stampRoot record)).Nodup := by
    have hnil : (Dict.keys ([] : Dict Tree)).Nodup := List.nodup_nil
    have hmove {part ordered : Dict Tree} (key : String) (ho : ordered.keys.Nodup) :
        (moveFirst part ordered key).keys.Nodup := by
      unfold moveFirst
      split
      · exact Dict.nodup_put ho _ _
      · exact ho
    exact Dict.nodup_merge (hmove _ (hmove _ (hmove _ (Dict.nodup_put (hmove _ hnil) _ _)))) _
  have hrelease : (Dict.keys [w.releaseEntry]).Nodup := List.nodup_singleton _
  refine Dict.perm_of_get? hstamped (Dict.nodup_merge hrelease _) fun key => ?_
  rw [Dict.get?_merge hnodup]
  by_cases htype : key = w.target.naming.protocol.componentType
  · obtain ⟨hversion, -, -⟩ := stamp_apart w.target.naming
    rw [htype, get?_stampRoot]
    simp [Dict.get?, releaseEntry, hversion]
  · rw [get?_stampRoot_of_ne hnodup htype]
    rfl

/-- What was built has each key once. -/
theorem Builds.nodup (h : w.Builds S l x record) : record.keys.Nodup := by
  have hengine : ∀ naming : NamingMode, ([naming.protocol.componentType, naming.protocol.version,
      naming.protocol.pluginName, naming.protocol.pluginVersion] ++ Record.baseFields).Nodup := by
    intro naming
    cases naming <;> decide
  cases h with
  | @gated _ c _ _ _ =>
    exact (w.keys_header_sublist c.componentType).nodup (hengine _).of_append_left
  | @whole _ c _ _ _ _ _ _ _ _ _ _ =>
    refine Dict.nodup_merge (Dict.nodup_merge ?_ _) _
    rw [Dict.keys_append]
    exact ((w.keys_header_sublist c.componentType).append (keys_baseOf c)).nodup (hengine _)

/-- What the record of an extension says besides its fields: the type, the plugin and the base entries. -/
def labels (w : Writer) (name version : String) (c : Component) : Dict Tree :=
  [(w.target.naming.protocol.componentType, .string c.componentType),
    (w.target.naming.protocol.pluginName, .string name),
    (w.target.naming.protocol.pluginVersion, .string version)] ++ baseOf c

theorem header_of_generic
    (howner : w.registry.owner? c.componentType =
      some ⟨.generic name version types declared, false⟩) :
    w.header c.componentType ++ baseOf c = w.labels name version c := by
  rw [header_eq, pluginEntries, howner]
  rfl

/-- The labels of equal components have the same keys. -/
theorem keys_labels_of_same (hsame : e.same c = true) :
    Dict.keys (w.labels name version c) = Dict.keys (w.labels name version e) := by
  obtain ⟨-, -, hdescription, hmetadata, -⟩ := Component.same_iff.mp hsame
  have hempty : c.metadata.isEmpty = e.metadata.isEmpty := by
    rw [Tree.sameDict, Bool.and_eq_true, beq_iff_eq] at hmetadata
    rw [Bool.eq_iff_iff, List.isEmpty_iff_length_eq_zero, List.isEmpty_iff_length_eq_zero,
      hmetadata.1]
  have hbase : Dict.keys (baseOf c) = Dict.keys (baseOf e) := by
    unfold baseOf descriptionEntry metadataEntry
    rw [hempty, hdescription]
    cases c.description <;> cases e.metadata.isEmpty <;> rfl
  rw [labels, labels, Dict.keys_append, Dict.keys_append, hbase]
  rfl

/-- Of an extension all visible fields are written. -/
theorem writtenFields_of_generic
    (howner : w.registry.owner? c.componentType =
      some ⟨.generic name version types declared, false⟩)
    (hextension : c.kind.isBuiltin = false) : w.writtenFields c = w.shown c := by
  have hwrite : (Plugin.generic name version types declared).write w.target c =
      .ok c.kind.fields := Plugin.writeBag_of_extension hextension
  have hvisible : w.visibleFields c = .ok (w.shown c) := by
    unfold visibleFields shown
    simp only [howner, hwrite]
    split <;> rfl
  exact writtenFields_ok hvisible

/-- Equal components have the same visible names. -/
theorem keys_shown_of_same (hsame : e.same d = true) (hkeyed : (Dict.keys e.kind.fields).Nodup) :
    (Dict.keys (w.shown d)).Perm (Dict.keys (w.shown e)) := by
  obtain ⟨-, -, -, -, hkind⟩ := Component.same_iff.mp hsame
  obtain ⟨fields, hperm, hfields⟩ := Kind.fields_paired hkind hkeyed
  simp only [shown, ← Component.same_type hsame]
  split
  · have hpaired := Dict.forall₂_filter (R := fun u v => Value.same u v = true) hfields
      (w.shows e.componentType)
    have hkeys : Dict.keys (e.kind.fields.filter fun f => w.shows e.componentType f.1) =
        Dict.keys (fields.filter fun f => w.shows e.componentType f.1) :=
      map_eq_of_forall₂ hpaired fun _ _ h => h.1
    rw [hkeys]
    exact ((hperm.filter _).map _).symm
  · exact .refl _

/-- The keys of all entries that are put into the record of an extension: the labels, the visible
fields and, if there is one, the entry for others. -/
def keysPut (w : Writer) (name version : String) (e : Component)
    (entries? : Option (Dict Tree)) : List String :=
  Dict.keys (w.labels name version e) ++
    (Dict.keys (w.shown e)).map w.target.naming.toDocument ++ Dict.keys (w.sidecarEntry entries?)

/-- A record is made for an extension: the labels, an entry for each visible field and records for others
are put in, one after the other. All of them are left just if their keys are apart. -/
structure Fills (w : Writer) (S : Component → Prop) (l : Layout) (name version : String)
    (e c d : Component) (fields : Dict Tree) (entries? : Option (Dict Tree)) (record : Dict Tree) :
    Prop where
  labelled : S c ∧ e.same c = true
  filled : S d ∧ e.same d = true
  dumped : w.DumpsFields S l (w.shown d) fields
  put : record = Dict.merge (Dict.merge (w.labels name version c) fields) (w.sidecarEntry entries?)
  keyed : (Dict.keys record).Nodup
  whole : record = w.labels name version c ++ fields ++ w.sidecarEntry entries? ↔
    (w.keysPut name version e entries?).Nodup

theorem nodup_keys_labels : (Dict.keys (w.labels name version c)).Nodup := by
  have hengine : ([w.target.naming.protocol.componentType, w.target.naming.protocol.pluginName,
      w.target.naming.protocol.pluginVersion] ++ Record.baseFields).Nodup := by
    cases w.target.naming <;> decide
  rw [labels, Dict.keys_append]
  exact ((List.Sublist.refl _).append (keys_baseOf c)).nodup hengine

theorem keys_put (hc : e.same c = true) (hd : e.same d = true)
    (hkeyed : (Dict.keys e.kind.fields).Nodup) (hdumped : w.DumpsFields S l (w.shown d) fields)
    (entries? : Option (Dict Tree)) :
    (Dict.keys (w.labels name version c) ++ Dict.keys fields ++
      Dict.keys (w.sidecarEntry entries?)).Perm (w.keysPut name version e entries?) := by
  rw [keysPut, keys_labels_of_same hc, hdumped.keys_eq]
  exact (((keys_shown_of_same hd hkeyed).map _).append_left _).append_right _

theorem isBuiltin_of_same (h : e.same d = true) : d.kind.isBuiltin = e.kind.isBuiltin := by
  obtain ⟨-, -, -, -, hkind⟩ := Component.same_iff.mp h
  cases he : e.kind <;> cases hd : d.kind <;> simp [he, hd, Kind.same, Kind.isBuiltin] at hkind ⊢

/-- The record of an extension that has its id for itself. -/
theorem Builds.fills (h : w.Builds S l e.id record)
    (howner : w.registry.owner? e.componentType =
      some ⟨.generic name version types declared, false⟩)
    (hextension : e.kind.isBuiltin = false)
    (hallowed : w.policy.kindAllowed e.componentType w.target.release = true)
    (hkeyed : (Dict.keys e.kind.fields).Nodup)
    (hsame : ∀ d, S d → d.id = e.id → e.same d = true) :
    ∃ c d fields entries?, w.Fills S l name version e c d fields entries? record := by
  have hnodup := h.nodup
  cases h with
  | @gated _ c hc hid hgated =>
    rw [← Component.same_type (hsame c hc hid), hallowed] at hgated
    cases hgated
  | @whole _ c d fields entries? hc hcid hd hdid _ hdumped _ =>
    have hec := hsame c hc hcid
    have hed := hsame d hd hdid
    have hkind : d.kind.isBuiltin = false := by
      rw [isBuiltin_of_same hed, hextension]
    rw [writtenFields_of_generic (Component.same_type hed ▸ howner) hkind] at hdumped
    have hput := header_of_generic (Component.same_type hec ▸ howner)
    refine ⟨c, d, fields, entries?, ⟨hc, hec⟩, ⟨hd, hed⟩, hdumped, by rw [hput], hnodup, ?_⟩
    rw [hput, Dict.merge_merge_eq_append_iff nodup_keys_labels]
    exact (keys_put hec hed hkeyed hdumped entries?).nodup_iff

end Writer

/-- What a save gives is made up of records, the root's with the release. In the record of an extension that
has its id for itself nothing takes the place of anything, if and only if the names of its visible fields
are spelled apart from each other and from the other keys. -/
theorem save_fills_records {registry : Registry} {policy : Policy} {options : SaveOptions}
    {root : Component} {saved : Saved}
    (hsave : save registry policy options root = .ok saved) :
    ∃ l, (options.writer registry policy).MadeUp ((options.writer registry policy).Writes root) l
        root saved ∧
      ∀ x record, (options.writer registry policy).Builds
          ((options.writer registry policy).Writes root) l x record →
        ((options.writer registry policy).stampRoot record).Perm
            (Dict.merge [(options.writer registry policy).releaseEntry] record) ∧
        ∀ e name version types declared, (options.writer registry policy).Writes root e → e.id = x →
          registry.owner? e.componentType = some ⟨.generic name version types declared, false⟩ →
          e.kind.isBuiltin = false → policy.kindAllowed e.componentType options.release = true →
          (Dict.keys e.kind.fields).Nodup →
          (∀ d, (options.writer registry policy).Writes root d → d.id = e.id → e.same d = true) →
          ∃ c d fields entries?, (options.writer registry policy).Fills
            ((options.writer registry policy).Writes root) l name version e c d fields entries?
            record := by
  obtain ⟨l, hmade⟩ := save_madeUp (S := (options.writer registry policy).Writes root)
    (fun c hc d hd => hc.kid hd) (.refl root) hsave
  refine ⟨l, hmade, fun x record hbuilt => ⟨Writer.stampRoot_perm hbuilt.nodup, ?_⟩⟩
  rintro e name version types declared - rfl howner hextension hallowed hkeyed hsame
  exact hbuilt.fills howner hextension hallowed hkeyed hsame

/-! Two notes with fields whose names are taken, by the component or by each other. -/
namespace Sample

/-- A note of which two fields are spelled alike. -/
def respelled : Component :=
  .mk 6 "note" "Note" none []
    (.extension "Note" [("modelId", .data (.bool true)), ("model_id", .data (.bool false))])

def noteWriter : Writer := SaveOptions.default.writer ⟨[notes]⟩ .builtin

theorem mem_note_of_writes {c : Component} (h : noteWriter.Writes note c) : c ∈ [note, labelled] := by
  refine h.mem (by simp) ?_
  have hnote : noteWriter.writtenChildren note = [labelled] := rfl
  have hlabelled : noteWriter.writtenChildren labelled = [] := rfl
  simp [hnote, hlabelled]

/-- The keys of a document, and the text that it has for a name, if it is one. -/
def keysAndName (saved : Saved) : List String × Option String :=
  match saved.document with
  | .map record => (Dict.keys record, (Dict.get? record "name").bind Tree.string?)
  | _ => ([], none)

end Sample

theorem save_fills_records_note : ∃ saved l,
    save ⟨[Sample.notes]⟩ .builtin .default Sample.note = .ok saved ∧
    Sample.noteWriter.MadeUp (Sample.noteWriter.Writes Sample.note) l Sample.note saved ∧
    ∀ record, Sample.noteWriter.Builds (Sample.noteWriter.Writes Sample.note) l "note" record →
      ∃ c d fields entries?, Sample.noteWriter.Fills (Sample.noteWriter.Writes Sample.note) l "notes" "1"
          Sample.note c d fields entries? record ∧
        record = Sample.noteWriter.labels "notes" "1" c ++ fields ++
          Sample.noteWriter.sidecarEntry entries? := by
  have hsaves : (save ⟨[Sample.notes]⟩ .builtin .default Sample.note).isOk = true := by decide +kernel
  obtain ⟨saved, hsave⟩ := exists_of_isOk hsaves
  obtain ⟨l, hmade, hrecords⟩ := save_fills_records hsave
  refine ⟨saved, l, hsave, hmade, fun record hbuilt => ?_⟩
  obtain ⟨-, hfills⟩ := hrecords "note" record hbuilt
  have hsame : ∀ d ∈ [Sample.note, Sample.labelled], d.id = Sample.note.id →
      Sample.note.same d = true := by decide +kernel
  obtain ⟨c, d, fields, entries?, hfilled⟩ := hfills Sample.note "notes" "1" ["Note"] ["body"]
    (.refl _) rfl rfl rfl (by decide +kernel) (by decide +kernel)
    fun d hd => hsame d (Sample.mem_note_of_writes hd)
  refine ⟨c, d, fields, entries?, hfilled, hfilled.whole.mpr ?_⟩
  have happart : (Sample.noteWriter.keysPut "notes" "1" Sample.note (some [])).Nodup := by
    decide +kernel
  cases entries? with
  | none =>
    rw [Writer.keysPut, Writer.sidecarEntry, Dict.keys_nil, List.append_nil]
    exact happart.of_append_left
  | some entries => exact happart

/-- Fields take the place of other entries: of the name of the component, or of each other. -/
theorem save_overwrites_fields :
    (∃ saved, save ⟨[Sample.notes]⟩ .builtin .default Sample.renamed = .ok saved ∧
      Sample.keysAndName saved = (["component_type", "agentspec_version", "id", "name",
        "component_plugin_name", "component_plugin_version"], none) ∧
      Dict.keys (Sample.noteWriter.shown Sample.renamed) = ["name"]) ∧
    ∃ saved, save ⟨[Sample.notes]⟩ .builtin .default Sample.respelled = .ok saved ∧
      Sample.keysAndName saved = (["component_type", "agentspec_version", "id", "name",
        "component_plugin_name", "component_plugin_version", "model_id"], some "Note") ∧
      Dict.keys (Sample.noteWriter.shown Sample.respelled) = ["modelId", "model_id"] := by
  have hrenamed : (save ⟨[Sample.notes]⟩ .builtin .default Sample.renamed).toOption.any (fun saved =>
      Sample.keysAndName saved == (["component_type", "agentspec_version", "id", "name",
        "component_plugin_name", "component_plugin_version"], none)) = true := by decide +kernel
  have hrespelled : (save ⟨[Sample.notes]⟩ .builtin .default Sample.respelled).toOption.any
      (fun saved => Sample.keysAndName saved == (["component_type", "agentspec_version", "id", "name",
        "component_plugin_name", "component_plugin_version", "model_id"], some "Note")) = true := by
    decide +kernel
  obtain ⟨saved, hsave, hloses⟩ := exists_of_any hrenamed
  obtain ⟨saved', hsave', hmerges⟩ := exists_of_any hrespelled
  exact ⟨⟨saved, hsave, beq_iff_eq.mp hloses, by decide +kernel⟩, saved', hsave',
    beq_iff_eq.mp hmerges, by decide +kernel⟩

end AgentGraph
