import AgentGraph.Proofs.Placement.Uses
import AgentGraph.Proofs.Plain
import AgentGraph.Proofs.Record.Stamp
/-!
# The keys of what is written

A key stands in a saved document because the protocol or a plugin names it, because it is in data or a
schema, or because it is the id under which a record is kept. A test that all these pass is passed by
every key of the documents; and a save fails only as its survey may.
-/
namespace AgentGraph

namespace Value

mutual
/-- The properties that stand in a value, in order, through lists and mappings. -/
def properties : Value → List Property
  | .property p => [p]
  | .list items => propertiesOfList items
  | .map entries => propertiesOfEntries entries
  | .data _ => []
  | .component _ => []
/-- The properties that stand in the values of a list. -/
def propertiesOfList : List Value → List Property
  | [] => []
  | v :: rest => properties v ++ propertiesOfList rest
/-- The properties that stand in the values of a mapping. -/
def propertiesOfEntries : List (String × Value) → List Property
  | [] => []
  | (_, v) :: rest => properties v ++ propertiesOfEntries rest
end

end Value

namespace Writer

/-- Components of a set make up only keys that pass a test. -/
structure Keyed (w : Writer) (S : Component → Prop) (test : String → Prop) : Prop where
  free : ∀ key, isReservedKey key = false → test key
  shared : ∀ id, w.Shared S id → test id
  fields : ∀ c, S c → ∀ f ∈ w.writtenFields c, test (w.target.naming.toDocument f.1)
  schemas : ∀ c, S c → ∀ f ∈ w.writtenFields c, ∀ p ∈ f.2.properties, p.toTree.KeysAll test

/-- A layout that was made for components of a set, in which references pass a test. -/
structure Lays (w : Writer) (S : Component → Prop) (test : String → Prop) (l : Layout) : Prop where
  survey : w.Within S l.survey
  table : ∀ entry ∈ l.table, w.Warranted S entry
  aliases : ∀ entry ∈ l.aliases, test entry.2

/-- All records built so far have keys that pass a test. -/
def RecordsPass (test : String → Prop) (records : Dict (Dict Tree)) : Prop :=
  ∀ id record, records.get? id = some record → (Tree.map record).KeysAll test

variable {w : Writer} {S : Component → Prop} {F : SaveError → Prop} {test : String → Prop}
  {l : Layout} {c : Component} {dump : Value → RecordM Tree}
  {recordOf : Component → RecordM (Dict Tree)}

theorem recordsPass_empty : RecordsPass test [] := fun _ _ h => nomatch h

theorem Keyed.protocol (hkeyed : w.Keyed S test) {key : String}
    (h : key ∈ w.target.naming.protocol.names) : test key := by
  have hall : ∀ naming : NamingMode, ∀ key ∈ naming.protocol.names, isReservedKey key = false := by
    intro naming
    cases naming <;> decide
  exact hkeyed.free key (hall _ key h)

theorem keysAll_header (hkeyed : w.Keyed S test) (type : String) :
    (Tree.map (w.header type)).KeysAll test := by
  have htype : (Tree.map [(w.target.naming.protocol.componentType, .string type)]).KeysAll test :=
    Tree.keysAll_map.mpr (List.forall_mem_singleton.mpr
      ⟨hkeyed.protocol (by simp [Protocol.names]), trivial⟩)
  unfold header
  split
  · exact (htype.put (hkeyed.protocol (by simp [Protocol.names])) (Tree.keysAll_string _)).put
      (hkeyed.protocol (by simp [Protocol.names])) (Tree.keysAll_string _)
  · exact htype

theorem keysAll_useOf (hkeyed : w.Keyed S test) {record : Dict Tree}
    (h : (Tree.map record).KeysAll test) (id : String) : (w.useOf l id record).KeysAll test := by
  unfold useOf
  split
  · exact Tree.keysAll_map.mpr (List.forall_mem_singleton.mpr
      ⟨hkeyed.protocol (by simp [Protocol.names]), trivial⟩)
  · exact h

theorem keysAll_stampRoot (hkeyed : w.Keyed S test) {record : Dict Tree}
    (h : (Tree.map record).KeysAll test) : (Tree.map (w.stampRoot record)).KeysAll test :=
  Tree.keysAll_map.mpr (forall_mem_stampRoot (Tree.keysAll_map.mp h)
    ⟨hkeyed.protocol (by simp [Protocol.names, releaseEntry]), Tree.keysAll_string _⟩)

section
variable (hkeyed : w.Keyed S test) (hfail : w.MayFail S F)
include hkeyed hfail

theorem gives_dumpData (budget : Nat) (t : Tree) :
    Gives F (w.dumpData budget t) (·.KeysAll test) := by
  unfold dumpData
  split
  · exact .error (hfail.depth _)
  · exact .ok ((Tree.unreserved_strip t).mono hkeyed.free)

theorem gives_baseEntries (room : Nat) {record : Dict Tree}
    (h : (Tree.map record).KeysAll test) :
    Gives F (w.baseEntries c room record) fun record => (Tree.map record).KeysAll test := by
  have hput {d : Dict Tree} (hd : (Tree.map d).KeysAll test) (key : String) (t : Tree)
      (hkey : isReservedKey key = false) (ht : t.KeysAll test) :
      (Tree.map (Dict.put d key t)).KeysAll test := hd.put (hkeyed.free key hkey) ht
  have hnamed := hput (hput h "id" (.string c.id) (by decide) trivial) "name" (.string c.name)
    (by decide) trivial
  have hmetadata {d : Dict Tree} (hd : (Tree.map d).KeysAll test) :
      Gives F (if c.metadata.isEmpty then return d
        else return Dict.put d "metadata" (← w.dumpData (room - 1) (.map c.metadata)))
        fun record => (Tree.map record).KeysAll test := by
    split
    · exact .ok hd
    · exact (gives_dumpData hkeyed hfail _ _).bind fun t ht =>
        .ok (hput hd "metadata" t (by decide) ht)
  unfold baseEntries
  cases c.description with
  | none => exact hmetadata hnamed
  | some text => exact hmetadata (hput hnamed "description" (.string text) (by decide) trivial)

omit hkeyed in
/-- The fields of a component are those of one with its id, or its plugin refuses it. -/
theorem gives_fieldsOf (hlays : w.Lays S test l) (hc : S c) :
    Gives F (w.fieldsOf l c) fun fields => ∃ d, S d ∧ fields = w.writtenFields d := by
  unfold fieldsOf
  split
  · rename_i fields hfields
    obtain ⟨d, -, hd, rfl⟩ := hlays.survey.fields? hfields
    exact .ok ⟨d, hd, rfl⟩
  · cases hv : w.visibleFields c with
    | error e => exact .error (hfail.refused c e hc hv)
    | ok fields => exact .ok ⟨c, hc, (writtenFields_ok hv).symm⟩

end

/-- Every record built so far is as it should be for its id. -/
def EachRecord (Q : String → Dict Tree → Prop) (records : Dict (Dict Tree)) : Prop :=
  ∀ id record, records.get? id = some record → Q id record

theorem eachRecord_empty (Q : String → Dict Tree → Prop) : EachRecord Q [] :=
  fun _ _ h => nomatch h

theorem preserves_remembered_each {Q : String → Dict Tree → Prop} {id : String}
    {build : RecordM (Dict Tree)} (h : Preserves (EachRecord Q) F build (Q id)) :
    Preserves (EachRecord Q) F (remembered id build) (Q id) := by
  refine Ends.get fun s hs => ?_
  cases hget : s.get? id with
  | some record =>
    refine Ends.pure ?_
    rintro _ rfl
    exact ⟨hs id record hget, hs⟩
  | none =>
    refine Ends.strengthen (I := EachRecord Q) ?_ (by rintro _ rfl; exact hs)
    refine h.bind fun record hrecord =>
      Ends.modify (J := EachRecord Q) ?_ (Preserves.pure hrecord)
    intro records hrecords x other hother
    rw [Dict.get?_put] at hother
    split at hother
    · subst x
      exact Option.some.inj hother ▸ hrecord
    · exact hrecords x other hother

theorem preserves_remembered {id : String} {build : RecordM (Dict Tree)}
    (h : Preserves (RecordsPass test) F build fun record => (Tree.map record).KeysAll test) :
    Preserves (RecordsPass test) F (remembered id build) fun record =>
      (Tree.map record).KeysAll test := preserves_remembered_each h

/-- What stands in a value: components of a set, and schemas with keys that pass a test. -/
def HoldsOnly (S : Component → Prop) (test : String → Prop) (v : Value) : Prop :=
  (∀ c ∈ v.components, S c) ∧ ∀ p ∈ v.properties, p.toTree.KeysAll test

/-- A way to write values that makes up only keys that pass a test. -/
def DumpsKeyed (S : Component → Prop) (F : SaveError → Prop) (test : String → Prop)
    (dump : Value → RecordM Tree) : Prop :=
  ∀ v, HoldsOnly S test v → Preserves (RecordsPass test) F (dump v) (·.KeysAll test)

/-- A way to make records that makes up only keys that pass a test. -/
def RecordsKeyed (S : Component → Prop) (F : SaveError → Prop) (test : String → Prop)
    (recordOf : Component → RecordM (Dict Tree)) : Prop :=
  ∀ c, S c → Preserves (RecordsPass test) F (recordOf c) fun record => (Tree.map record).KeysAll test

theorem holdsOnly_items {v : Value} {rest : List Value} :
    HoldsOnly S test (.list (v :: rest)) ↔ HoldsOnly S test v ∧ HoldsOnly S test (.list rest) := by
  simp only [HoldsOnly, Value.components, Value.componentsOfList, Value.properties,
    Value.propertiesOfList, List.forall_mem_append]
  tauto

theorem holdsOnly_entries {key : String} {v : Value} {rest : List (String × Value)} :
    HoldsOnly S test (.map ((key, v) :: rest)) ↔
      HoldsOnly S test v ∧ HoldsOnly S test (.map rest) := by
  simp only [HoldsOnly, Value.components, Value.componentsOfEntries, Value.properties,
    Value.propertiesOfEntries, List.forall_mem_append]
  tauto

theorem preserves_dumpItems (hdump : DumpsKeyed S F test dump) {items : List Value}
    (h : HoldsOnly S test (.list items)) :
    Preserves (RecordsPass test) F (dumpItems dump items) fun ts => ∀ t ∈ ts, t.KeysAll test := by
  induction items with
  | nil => exact .pure fun _ ht => nomatch ht
  | cons v rest ih =>
    obtain ⟨hv, hrest⟩ := holdsOnly_items.mp h
    refine (hdump v hv).bind fun t ht => (ih hrest).bind fun ts hts => .pure ?_
    exact List.forall_mem_cons.mpr ⟨ht, hts⟩

theorem preserves_dumpMapping (hkeyed : w.Keyed S test) (hdump : DumpsKeyed S F test dump)
    {entries : List (String × Value)} (h : HoldsOnly S test (.map entries)) :
    Preserves (RecordsPass test) F (dumpMapping dump entries) fun d =>
      (Tree.map d).KeysAll test := by
  induction entries with
  | nil => exact .pure trivial
  | cons entry rest ih =>
    obtain ⟨key, v⟩ := entry
    obtain ⟨hv, hrest⟩ := holdsOnly_entries.mp h
    unfold dumpMapping
    split
    · exact ih hrest
    · rename_i hkey
      refine (hdump v hv).bind fun t ht => (ih hrest).bind fun d hd => .pure ?_
      exact ⟨hkeyed.free key (by simpa using hkey), ht, hd⟩

theorem preserves_dumpFields (hdump : DumpsKeyed S F test dump) {fields : Dict Value}
    {record : Dict Tree} (hspelled : ∀ f ∈ fields, test (w.target.naming.toDocument f.1))
    (hholds : ∀ f ∈ fields, HoldsOnly S test f.2) (h : (Tree.map record).KeysAll test) :
    Preserves (RecordsPass test) F (w.dumpFields dump fields record) fun record =>
      (Tree.map record).KeysAll test := by
  induction fields generalizing record with
  | nil => exact .pure h
  | cons f rest ih =>
    obtain ⟨hkey, hspelled⟩ := List.forall_mem_cons.mp hspelled
    obtain ⟨hf, hholds⟩ := List.forall_mem_cons.mp hholds
    exact (hdump f.2 hf).bind fun t ht => ih hspelled hholds (h.put hkey ht)

theorem preserves_dumpEntries (hlays : w.Lays S test l) (hrecord : RecordsKeyed S F test recordOf)
    {ids : List String} {entries : Dict Tree} (hids : ∀ id ∈ ids, test id)
    (h : (Tree.map entries).KeysAll test) :
    Preserves (RecordsPass test) F (dumpEntries l recordOf ids entries) fun entries =>
      (Tree.map entries).KeysAll test := by
  induction ids generalizing entries with
  | nil => exact .pure h
  | cons id rest ih =>
    obtain ⟨hid, hrest⟩ := List.forall_mem_cons.mp hids
    unfold dumpEntries
    split
    · exact ih hrest h
    · rename_i c hc
      exact (hrecord c (hlays.survey.component? hc)).bind fun r hr => ih hrest (h.put hid hr)

theorem preserves_dumpHosted (hkeyed : w.Keyed S test) (hlays : w.Lays S test l)
    (hrecord : RecordsKeyed S F test recordOf) {anchor : String} {record : Dict Tree}
    (h : (Tree.map record).KeysAll test) :
    Preserves (RecordsPass test) F (w.dumpHosted l recordOf anchor record) fun record =>
      (Tree.map record).KeysAll test := by
  have hids : ∀ id ∈ l.hosted anchor, test id := by
    intro id hid
    obtain ⟨⟨id, place⟩, hentry, rfl⟩ := List.mem_map.mp hid
    obtain ⟨hentry, hplace⟩ := List.mem_filter.mp hentry
    simp only [Bool.and_eq_true, beq_iff_eq] at hplace
    have hwarranted := hlays.table _ hentry
    rw [Warranted, hplace.1] at hwarranted
    exact hkeyed.shared id hwarranted
  unfold dumpHosted
  split
  · exact .pure h
  · refine (preserves_dumpEntries hlays hrecord hids Tree.keysAll_empty).bind
      fun entries hentries => .pure ?_
    exact h.put (hkeyed.protocol (by simp [Protocol.names])) hentries

section
variable (hclosed : w.Closed S) (hkeyed : w.Keyed S test) (hfail : w.MayFail S F)
  (hlays : w.Lays S test l)
include hclosed hkeyed hfail hlays

theorem preserves_buildRecord {room : Nat} (hdump : DumpsKeyed S F test dump)
    (hrecord : RecordsKeyed S F test recordOf) (hc : S c) :
    Preserves (RecordsPass test) F (w.buildRecord l room dump recordOf c) fun record =>
      (Tree.map record).KeysAll test := by
  unfold buildRecord
  simp only
  refine Ends.lift_gives (gives_fieldsOf hfail hlays hc) fun fields hfields => ?_
  obtain ⟨d, hd, rfl⟩ := hfields
  have hholds : ∀ f ∈ w.writtenFields d, HoldsOnly S test f.2 := fun f hf =>
    ⟨fun e he => hclosed d hd e (mem_heldComponents hf he), hkeyed.schemas d hd f hf⟩
  have hheader := keysAll_header hkeyed c.componentType
  split
  · refine Ends.lift_gives (gives_baseEntries hkeyed hfail room hheader) fun record hbase => ?_
    refine (preserves_dumpFields hdump (hkeyed.fields d hd) hholds hbase).bind fun record hfields => ?_
    exact preserves_dumpHosted hkeyed hlays hrecord hfields
  · exact Preserves.pure hheader

/-- Records and values of all levels. -/
theorem writes_keyed (room : Nat) :
    RecordsKeyed S F test (w.record l room) ∧ DumpsKeyed S F test (w.dumpValue l room) := by
  induction room with
  | zero =>
    constructor
    · exact fun c _ => preserves_remembered (Ends.throw (hfail.depth _))
    · exact fun v _ => Ends.throw (hfail.depth _)
  | succ room ih =>
    have hrecord : RecordsKeyed S F test (w.record l (room + 1)) := fun c hc =>
      preserves_remembered (preserves_buildRecord hclosed hkeyed hfail hlays ih.2 ih.1 hc)
    refine ⟨hrecord, fun v hv => ?_⟩
    cases v with
    | data t =>
      have hdata : Preserves (RecordsPass test) F (liftM (w.dumpData room t) >>= Pure.pure)
          (·.KeysAll test) :=
        Ends.lift_gives (gives_dumpData hkeyed hfail room t) fun u hu => Preserves.pure hu
      rwa [bind_pure] at hdata
    | component c =>
      rw [dumpValue_component]
      have hc : S c := hv.1 c (by simp [Value.components])
      exact (hrecord c hc).bind fun r hr => .pure (keysAll_useOf hkeyed hr c.id)
    | property p => exact .pure (hv.2 p (by simp [Value.properties]))
    | list items =>
      exact (preserves_dumpItems ih.2 hv).bind fun ts hts => .pure (Tree.keysAll_list.mpr hts)
    | map entries => exact (preserves_dumpMapping hkeyed ih.2 hv).bind fun d hd => .pure hd

theorem preserves_sidecarEntries {pairs : List (String × String)} {entries : Dict Tree}
    (hpairs : ∀ p ∈ pairs, test p.2) (h : (Tree.map entries).KeysAll test) :
    Preserves (RecordsPass test) F (w.sidecarEntries l pairs entries) fun entries =>
      (Tree.map entries).KeysAll test := by
  induction pairs generalizing entries with
  | nil => exact .pure h
  | cons p rest ih =>
    obtain ⟨hp, hrest⟩ := List.forall_mem_cons.mp hpairs
    unfold sidecarEntries
    split
    · exact ih hrest h
    · rename_i c hc
      refine ((writes_keyed hclosed hkeyed hfail hlays w.maxDepth).1 c
        (hlays.survey.component? hc)).bind fun r hr => ih hrest (h.put hp hr)

theorem preserves_documents (exportSidecar : Bool) (hc : S c) :
    Preserves (RecordsPass test) F (w.documents l c exportSidecar) fun saved =>
      saved.document.KeysAll test ∧
        ∀ sidecar, saved.sidecar = some sidecar → sidecar.KeysAll test := by
  refine ((writes_keyed hclosed hkeyed hfail hlays (w.maxDepth + 1)).1 c hc).bind
    fun record hrecord => ?_
  have hdocument := keysAll_stampRoot hkeyed hrecord
  simp only
  split
  · refine Preserves.bind (P := (·.KeysAll test)) ?_ fun sidecar hsidecar =>
      .pure ⟨hdocument, fun _ h => Option.some.inj h ▸ hsidecar⟩
    refine (preserves_sidecarEntries hclosed hkeyed hfail hlays hlays.aliases Tree.keysAll_empty).bind
      fun entries hentries => .pure ?_
    refine Tree.keysAll_map.mpr (List.forall_mem_cons.mpr ⟨⟨?_, trivial⟩,
      List.forall_mem_singleton.mpr ⟨?_, hentries⟩⟩)
    · exact hkeyed.protocol (by simp [releaseEntry, Protocol.names])
    · exact hkeyed.protocol (by simp [Protocol.names])
  · exact .pure ⟨hdocument, by rintro _ ⟨⟩⟩

end
end Writer

/-- A save of components of a closed set gives documents in which all keys pass a test, or fails as its
survey may or for the list of what goes to the sidecar. -/
theorem save_gives {registry : Registry} {policy : Policy} {options : SaveOptions}
    {root : Component} {S : Component → Prop} {F : SaveError → Prop} {test : String → Prop}
    (hclosed : (options.writer registry policy).Closed S)
    (hkeyed : (options.writer registry policy).Keyed S test)
    (hfail : (options.writer registry policy).MayFail S F)
    (hlisted : ∀ id alias?, (id, alias?) ∈ options.disaggregated → test (alias?.getD id))
    (hforced : ∀ (s : Survey) e, s.force root.id options.disaggregated [] = .error e → F e)
    (hroot : S root) :
    Gives F (save registry policy options root) fun saved =>
      saved.document.KeysAll test ∧
        ∀ sidecar, saved.sidecar = some sidecar → sidecar.KeysAll test := by
  have hsurvey := (Writer.preserves_survey hclosed hfail (options.maxDepth + 1) hroot).run
    Writer.within_empty
  refine hsurvey.bind ?_
  rintro ⟨table, s⟩ ⟨htable, hs⟩
  refine (Writer.gives_aliases hs (hforced s)).bind fun aliases haliases => ?_
  have hlays : (options.writer registry policy).Lays S test ⟨s, table, aliases⟩ := by
    refine ⟨hs, htable, fun entry hentry => ?_⟩
    rcases haliases entry hentry with hshared | ⟨id, alias?, hmem, hname⟩
    · exact hkeyed.shared _ hshared
    · exact hname ▸ hlisted id alias? hmem
  have hdocuments := (Writer.preserves_documents hclosed hkeyed hfail hlays options.exportSidecar
    hroot).run Writer.recordsPass_empty
  exact hdocuments.bind fun p hp => .ok hp.1

end AgentGraph
