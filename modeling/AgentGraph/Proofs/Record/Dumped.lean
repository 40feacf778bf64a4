import AgentGraph.Proofs.Document.Saved
import AgentGraph.Proofs.Record.Keys
import AgentGraph.Proofs.Record.Render
/-!
# What records are put together from

What the writer makes of values and components, as relations that say nothing of the levels and of the
records built before. Entries are put into a record one after the other, so a later one takes the place
of an earlier one under its key. Nothing is asked of the ids, the plugins or the names of fields.
-/
namespace AgentGraph

namespace Dict
variable {α : Type} {d e : Dict α}

theorem nodup_merge (h : d.keys.Nodup) (e : Dict α) : (merge d e).keys.Nodup := by
  unfold merge
  induction e generalizing d with
  | nil => exact h
  | cons p rest ih => exact ih (nodup_put h p.1 p.2)

/-- Three mappings are put together without a loss just if they share no key. -/
theorem merge_merge_eq_append_iff (h : d.keys.Nodup) {f : Dict α} :
    merge (merge d e) f = d ++ e ++ f ↔ (d.keys ++ e.keys ++ f.keys).Nodup := by
  refine ⟨fun heq => ?_, fun hnodup => ?_⟩
  · rw [← keys_append, ← keys_append, ← heq]
    exact nodup_merge (nodup_merge h e) f
  · rw [merge_of_disjoint hnodup.of_append_left, merge_of_disjoint (by rwa [keys_append])]

/-- Mappings in which the same is found have the same entries. -/
theorem perm_of_get? (hd : d.keys.Nodup) (he : e.keys.Nodup) (h : ∀ k, d.get? k = e.get? k) :
    d.Perm e := by
  refine (List.perm_ext_iff_of_nodup (hd.of_map _) (he.of_map _)).mpr fun p => ?_
  obtain ⟨k, v⟩ := p
  refine ⟨fun hp => mem_of_get? ?_, fun hp => mem_of_get? ?_⟩
  · rw [← h, get?_of_mem hd hp]
  · rw [h, get?_of_mem he hp]

end Dict

namespace Writer
section
variable (w : Writer) (S : Component → Prop) (l : Layout)

/-- The entry under which records for others stand, if there is one. -/
def sidecarEntry (entries? : Option (Dict Tree)) : Dict Tree :=
  match entries? with
  | some entries => [(w.target.naming.protocol.referencedComponents, .map entries)]
  | none => []

mutual
/-- A value of components of a set is written as a tree. -/
inductive Dumps : Value → Tree → Prop
  | data (t : Tree) : Dumps (.data t) t.strip
  | component {c : Component} {record : Dict Tree} : Builds c.id record →
      Dumps (.component c) (w.useOf l c.id record)
  | property (p : Property) : Dumps (.property p) p.toTree
  | list {items : List Value} {ts : List Tree} : DumpsItems items ts →
      Dumps (.list items) (.list ts)
  | map {entries : List (String × Value)} {d : Dict Tree} : DumpsEntries entries d →
      Dumps (.map entries) (.map d)
/-- The values of a list are written as trees, in order. -/
inductive DumpsItems : List Value → List Tree → Prop
  | nil : DumpsItems [] []
  | cons {v : Value} {t : Tree} {rest : List Value} {ts : List Tree} : Dumps v t →
      DumpsItems rest ts → DumpsItems (v :: rest) (t :: ts)
/-- The values of a mapping are written under their keys, without reserved keys. -/
inductive DumpsEntries : List (String × Value) → List (String × Tree) → Prop
  | nil : DumpsEntries [] []
  | dropped {key : String} {v : Value} {rest : List (String × Value)} {d : List (String × Tree)} :
      isReservedKey key = true → DumpsEntries rest d → DumpsEntries ((key, v) :: rest) d
  | kept {key : String} {v : Value} {t : Tree} {rest : List (String × Value)}
      {d : List (String × Tree)} : isReservedKey key = false → Dumps v t →
      DumpsEntries rest d → DumpsEntries ((key, v) :: rest) ((key, t) :: d)
/-- Fields are written under the spellings of their names, each in its turn. -/
inductive DumpsFields : List (String × Value) → List (String × Tree) → Prop
  | nil : DumpsFields [] []
  | cons {name : String} {v : Value} {t : Tree} {rest : List (String × Value)}
      {d : List (String × Tree)} : Dumps v t → DumpsFields rest d →
      DumpsFields ((name, v) :: rest) ((w.target.naming.toDocument name, t) :: d)
/-- A record is built for an id, from components of a set that have it: the header and the base entries
of the one at hand, the fields of one that was met before, and records for others. -/
inductive Builds : String → Dict Tree → Prop
  | gated {x : String} {c : Component} : S c → c.id = x →
      w.policy.kindAllowed c.componentType w.target.release = false →
      Builds x (w.header c.componentType)
  | whole {x : String} {c d : Component} {fields : List (String × Tree)}
      {entries? : Option (Dict Tree)} : S c → c.id = x → S d → d.id = x →
      w.policy.kindAllowed c.componentType w.target.release = true →
      DumpsFields (w.writtenFields d) fields →
      (∀ entries, entries? = some entries → ∀ y record, (y, .map record) ∈ entries →
        Builds y record) →
      Builds x (Dict.merge (Dict.merge (w.header c.componentType ++ baseOf c) fields)
        (w.sidecarEntry entries?))
end

/-- What a save gives is made of records that were built: the document of that of the root with the
release, the sidecar of others. -/
structure MadeUp (root : Component) (saved : Saved) : Prop where
  document : ∃ record, w.Builds S l root.id record ∧ saved.document = .map (w.stampRoot record)
  sidecar : ∀ p ∈ saved.sidecarEntries w.target.naming,
    ∃ x record, p.2 = .map record ∧ w.Builds S l x record

end

variable {w : Writer} {S : Component → Prop} {l : Layout} {c : Component} {x : String}
  {dump : Value → RecordM Tree} {recordOf : Component → RecordM (Dict Tree)}

theorem DumpsFields.keys_eq {fields : List (String × Value)} {d : List (String × Tree)}
    (h : w.DumpsFields S l fields d) :
    Dict.keys d = (Dict.keys fields).map w.target.naming.toDocument := by
  match h with
  | .nil => rfl
  | .cons _ hrest => rw [Dict.keys_cons, Dict.keys_cons, List.map_cons, hrest.keys_eq]

/-- The header of a record has none of the base keys. -/
theorem base_not_header (w : Writer) (type : String) :
    ∀ key ∈ Record.baseFields, key ∉ Dict.keys (w.header type) := by
  intro key hkey hmem
  have hall : ∀ naming : NamingMode, ∀ key ∈ Record.baseFields, key ∉
      [naming.protocol.componentType, naming.protocol.version, naming.protocol.pluginName,
        naming.protocol.pluginVersion] := by
    intro naming
    cases naming <;> decide
  exact hall _ key hkey ((w.keys_header_sublist type).subset hmem)

/-- A run that builds only such records. -/
abbrev OnlyBuilds {α : Type} (w : Writer) (S : Component → Prop) (l : Layout) (m : RecordM α)
    (Q : α → Prop) : Prop := Preserves (EachRecord (w.Builds S l)) (fun _ => True) m Q

/-- A way to write the values of components of a set. -/
def DumpsAll (w : Writer) (S : Component → Prop) (l : Layout) (dump : Value → RecordM Tree) :
    Prop := ∀ v, (∀ c ∈ v.components, S c) → w.OnlyBuilds S l (dump v) (w.Dumps S l v)

/-- A way to make the records of components of a set. -/
def BuildsAll (w : Writer) (S : Component → Prop) (l : Layout)
    (recordOf : Component → RecordM (Dict Tree)) : Prop :=
  ∀ c, S c → w.OnlyBuilds S l (recordOf c) (w.Builds S l c.id)

theorem dumps_items (hdump : w.DumpsAll S l dump) {items : List Value}
    (hitems : ∀ c ∈ Value.componentsOfList items, S c) :
    w.OnlyBuilds S l (dumpItems dump items) (w.DumpsItems S l items) := by
  induction items with
  | nil => exact .pure .nil
  | cons v rest ih =>
    obtain ⟨hv, hrest⟩ := List.forall_mem_append.mp hitems
    exact (hdump v hv).bind fun t ht => (ih hrest).bind fun ts hts => .pure (.cons ht hts)

theorem dumps_mapping (hdump : w.DumpsAll S l dump) {entries : List (String × Value)}
    (hentries : ∀ c ∈ Value.componentsOfEntries entries, S c) :
    w.OnlyBuilds S l (dumpMapping dump entries) (w.DumpsEntries S l entries) := by
  induction entries with
  | nil => exact .pure .nil
  | cons entry rest ih =>
    obtain ⟨key, v⟩ := entry
    obtain ⟨hv, hrest⟩ := List.forall_mem_append.mp hentries
    unfold dumpMapping
    split
    · rename_i hkey
      exact (ih hrest).mono fun d hd => .dropped hkey hd
    · rename_i hkey
      exact (hdump v hv).bind fun t ht => (ih hrest).bind fun d hd =>
        .pure (.kept (by simpa using hkey) ht hd)

theorem dumps_fields (hdump : w.DumpsAll S l dump) {fields : Dict Value}
    (hfields : ∀ c ∈ heldComponents fields, S c) (start : Dict Tree) :
    w.OnlyBuilds S l (w.dumpFields dump fields start) fun record =>
      ∃ d, w.DumpsFields S l fields d ∧ record = Dict.merge start d := by
  induction fields generalizing start with
  | nil => exact .pure ⟨[], .nil, rfl⟩
  | cons f rest ih =>
    obtain ⟨hv, hrest⟩ := List.forall_mem_append.mp hfields
    refine (hdump f.2 hv).bind fun t ht => (ih hrest _).mono ?_
    rintro record ⟨d, hd, rfl⟩
    exact ⟨_, .cons ht hd, rfl⟩

/-- Records that stand under ids were built for them. -/
def EntriesBuilt (w : Writer) (S : Component → Prop) (l : Layout) (entries : Dict Tree) : Prop :=
  ∀ p ∈ entries, ∃ record, p.2 = .map record ∧ w.Builds S l p.1 record

section
variable (hs : w.Within S l.survey)
include hs

theorem builds_entries (hrecord : w.BuildsAll S l recordOf) {ids : List String}
    {entries : Dict Tree} (h : w.EntriesBuilt S l entries) :
    w.OnlyBuilds S l (dumpEntries l recordOf ids entries) (w.EntriesBuilt S l) := by
  induction ids generalizing entries with
  | nil => exact .pure h
  | cons id rest ih =>
    unfold dumpEntries
    split
    · exact ih h
    · rename_i c hc
      obtain ⟨⟨d, fields⟩, hd, rfl⟩ := Option.map_eq_some_iff.mp hc
      obtain ⟨rfl, hreach, -⟩ := hs.found _ _ _ hd
      exact (hrecord d hreach).bind fun r hr => ih (Dict.forall_mem_put h ⟨r, rfl, hr⟩)

theorem builds_hosted (hrecord : w.BuildsAll S l recordOf) (anchor : String)
    (start : Dict Tree) :
    w.OnlyBuilds S l (w.dumpHosted l recordOf anchor start) fun record => ∃ entries?,
      (∀ entries, entries? = some entries → w.EntriesBuilt S l entries) ∧
      record = Dict.merge start (w.sidecarEntry entries?) := by
  unfold dumpHosted
  split
  · exact Preserves.pure ⟨none, by simp, rfl⟩
  · have hstart : w.EntriesBuilt S l [] := by simp [EntriesBuilt]
    refine (builds_entries hs hrecord hstart).bind
      fun entries hentries => Preserves.pure ⟨some entries, fun other heq => ?_, rfl⟩
    exact Option.some.inj heq ▸ hentries

variable (hclosed : w.Closed S)
include hclosed

theorem builds_record {room : Nat} (hdump : w.DumpsAll S l dump)
    (hrecord : w.BuildsAll S l recordOf) (hc : S c) :
    w.OnlyBuilds S l (w.buildRecord l room dump recordOf c) (w.Builds S l c.id) := by
  unfold buildRecord
  have hfields : Gives (fun _ => True) (w.fieldsOf l c) fun fields =>
      ∃ d, d.id = c.id ∧ S d ∧ fields = w.writtenFields d := by
    unfold fieldsOf
    split
    · rename_i fields hfields
      obtain ⟨d, hid, hd, rfl⟩ := hs.fields? hfields
      exact .ok ⟨d, hid, hd, rfl⟩
    · cases hv : w.visibleFields c with
      | error e => exact .error trivial
      | ok fields => exact .ok ⟨c, rfl, hc, (writtenFields_ok hv).symm⟩
  refine Ends.lift_gives hfields ?_
  rintro _ ⟨d, hid, hd, rfl⟩
  simp only
  split
  · rename_i hallowed
    refine Ends.lift (fun _ _ => trivial) fun base hbase => ?_
    obtain rfl := baseEntries_ok (w.base_not_header c.componentType) hbase
    refine (dumps_fields hdump (hclosed d hd) _).bind ?_
    rintro _ ⟨fields, hdumped, rfl⟩
    refine (builds_hosted hs hrecord c.id _).mono ?_
    rintro _ ⟨entries?, hentries, rfl⟩
    refine .whole hc rfl hd hid hallowed hdumped fun entries heq y record hmem => ?_
    obtain ⟨known, hmap, hbuilt⟩ := hentries entries heq _ hmem
    exact Tree.map.inj hmap ▸ hbuilt
  · rename_i hgated
    exact Preserves.pure (.gated hc rfl (by simpa using hgated))

/-- Records and values of all levels. -/
theorem writer_builds (room : Nat) :
    w.BuildsAll S l (w.record l room) ∧ w.DumpsAll S l (w.dumpValue l room) := by
  induction room with
  | zero =>
    constructor
    · exact fun c _ => preserves_remembered_each (Ends.throw trivial)
    · exact fun v _ => Ends.throw trivial
  | succ room ih =>
    have hrecord : w.BuildsAll S l (w.record l (room + 1)) := fun c hc =>
      preserves_remembered_each (builds_record hs hclosed ih.2 ih.1 hc)
    refine ⟨hrecord, fun v hv => ?_⟩
    cases v with
    | data t =>
      refine Preserves.lifted fun u hu => ?_
      obtain rfl := dumpData_ok hu
      exact .data t
    | component c =>
      rw [dumpValue_component]
      exact (hrecord c (hv c (by simp))).bind fun record hr => .pure (.component hr)
    | property p => exact .pure (.property p)
    | list items =>
      rw [Value.components] at hv
      exact (dumps_items ih.2 hv).bind fun ts hts => .pure (.list hts)
    | map entries =>
      rw [Value.components] at hv
      exact (dumps_mapping ih.2 hv).bind fun d hd => .pure (.map hd)

theorem builds_sidecar {pairs : List (String × String)} {start : Dict Tree}
    (h : ∀ p ∈ start, ∃ x record, p.2 = .map record ∧ w.Builds S l x record) :
    w.OnlyBuilds S l (w.sidecarEntries l pairs start) fun entries =>
      ∀ p ∈ entries, ∃ x record, p.2 = .map record ∧ w.Builds S l x record := by
  induction pairs generalizing start with
  | nil => exact .pure h
  | cons p rest ih =>
    unfold sidecarEntries
    split
    · exact ih h
    · rename_i c hc
      refine ((writer_builds hs hclosed w.maxDepth).1 c (hs.component? hc)).bind fun r hr => ih ?_
      exact Dict.forall_mem_put h ⟨_, r, rfl, hr⟩

theorem builds_documents {root : Component} (hroot : S root) (exportSidecar : Bool) :
    w.OnlyBuilds S l (w.documents l root exportSidecar) (w.MadeUp S l root) := by
  unfold documents
  refine ((writer_builds hs hclosed (w.maxDepth + 1)).1 root hroot).bind fun record hrecord => ?_
  have hversion : w.target.naming.protocol.version ≠
      w.target.naming.protocol.referencedComponents := by
    cases w.target.naming <;> decide
  split
  · refine Preserves.bind (P := fun sidecar => ∃ entries, sidecar = Tree.map [w.releaseEntry,
        (w.target.naming.protocol.referencedComponents, .map entries)] ∧
      ∀ p ∈ entries, ∃ x record, p.2 = .map record ∧ w.Builds S l x record) ?_ ?_
    · exact (builds_sidecar hs hclosed (by simp)).bind fun entries hentries =>
        .pure ⟨entries, rfl, hentries⟩
    · rintro _ ⟨entries, rfl, hentries⟩
      refine .pure ⟨⟨record, hrecord, rfl⟩, ?_⟩
      simpa [Saved.sidecarEntries, NamingMode.definitions, Dict.get?, releaseEntry, hversion] using
        hentries
  · exact Preserves.pure ⟨⟨record, hrecord, rfl⟩, by simp [Saved.sidecarEntries]⟩

end
end Writer

/-- What a save gives was built from the components under the root. -/
theorem save_madeUp {registry : Registry} {policy : Policy} {options : SaveOptions}
    {root : Component} {saved : Saved} {S : Component → Prop}
    (hclosed : (options.writer registry policy).Closed S) (hroot : S root)
    (hsave : save registry policy options root = .ok saved) :
    ∃ l, (options.writer registry policy).MadeUp S l root saved := by
  have hfail : (options.writer registry policy).MayFail S fun _ => True :=
    ⟨fun _ => trivial, fun _ _ _ _ => trivial, fun _ _ _ _ _ _ _ => trivial⟩
  obtain ⟨⟨table, survey⟩, hsurvey, hsave⟩ := bind_ok hsave
  obtain ⟨aliases, -, hsave⟩ := bind_ok hsave
  obtain ⟨⟨saved', r⟩, hdocuments, hsave⟩ := bind_ok hsave
  obtain rfl := Except.ok.inj hsave
  have hs := (((Writer.preserves_survey hclosed hfail (options.maxDepth + 1) hroot).run
    Writer.within_empty).of_ok hsurvey).2
  let l : Layout := ⟨survey, table, aliases⟩
  have hdone := (Writer.builds_documents (l := l) hs hclosed hroot options.exportSidecar).run
    (Writer.eachRecord_empty _)
  exact ⟨l, (hdone.of_ok hdocuments).1⟩

end AgentGraph
